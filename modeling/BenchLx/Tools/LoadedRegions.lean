import BenchLx.Tools.Fpga

/-!
# The regions that `fpga.py` fills

The initrd and the command are written to regions that meet, and only the command is padded to the
size of its region; nothing bounds it. So both are in place exactly when the encoded command leaves
room for a zero byte (`loads_iff`), as one of up to 255 characters always does
(`loads_of_length`).
-/

namespace BenchLx.Fpga

open Region

/-- The region of the command holds the command and behind it only zeros, at least one. -/
def HoldsCommand (m : ℕ → UInt8) (cmd : Bytes) : Prop :=
  ∃ n > 0, cmd.length + n = benchCmdSize ∧ Holds m benchCmdAddr (cmd ++ List.replicate n 0)

variable {S : Type} (board : Board S) (files : List CodePoint → Except PyError Bytes)
  (args : Args)

/-- The initrd, if there is one, and the command are in place. -/
structure Loaded (s : S) : Prop where
  initrd : ∀ file ∈ args.initrd, ∃ content, files file = .ok content ∧
    Holds (board.byte s) initrdAddr content
  command : ∃ cmd, encode args.command = .ok cmd ∧ HoldsCommand (board.byte s) cmd

/-- The loading phase stops with an error, or everything is in place after it. -/
def LoadsOrStops (s : S) : Prop :=
  ∀ s', load board files args s = .ok s' → Loaded board files args s'

/-- The region of the command ends where the one of the initrd starts. -/
theorem benchCmdAddr_add_benchCmdSize : benchCmdAddr + benchCmdSize = initrdAddr := rfl

variable {board} {files} {args}

/-- A command that leaves room for a zero byte fills its region. -/
theorem holdsCommand_overwrite (m : ℕ → UInt8) {cmd : Bytes} (hlen : cmd.length < benchCmdSize) :
    HoldsCommand
      (overwrite m benchCmdAddr (cmd ++ List.replicate (max 1 (benchCmdSize - cmd.length)) 0))
      cmd := by
  rw [Nat.max_eq_right (by omega : 1 ≤ benchCmdSize - cmd.length)]
  exact ⟨benchCmdSize - cmd.length, by omega, by omega, holds_overwrite m _ _⟩

/-- A command that leaves room for a zero byte leaves the initrd alone. -/
theorem holds_initrd_overwrite (m : ℕ → UInt8) {cmd content : Bytes}
    (hlen : cmd.length < benchCmdSize) :
    Holds (overwrite m benchCmdAddr
        (cmd ++ List.replicate (max 1 (benchCmdSize - cmd.length)) 0)) initrdAddr content
      ↔ Holds m initrdAddr content := by
  refine holds_overwrite_of_disjoint m (.inl ?_)
  rw [List.length_append, List.length_replicate, ← benchCmdAddr_add_benchCmdSize]
  omega

/-- The command is written last, onto what the programs and the initrd have left. -/
theorem load_eq_loadBench {s s₁ s₂ : S} (hprograms : programs board args s = .ok s₁)
    (hinitrd : loadInitrd board files args s₁ = .ok s₂) :
    load board files args s = loadBench board args s₂ := by
  rw [load, hprograms, ok_bind, hinitrd, ok_bind]

/-- Nothing stops the loading phase when the programs and the file can be loaded and the command can
be encoded. -/
theorem exists_load_eq_ok {s s₁ : S} {cmd : Bytes} (hprograms : programs board args s = .ok s₁)
    (hfiles : ∀ file ∈ args.initrd, ∃ content, files file = .ok content)
    (hcmd : encode args.command = .ok cmd) : ∃ s', load board files args s = .ok s' := by
  obtain ⟨s₂, hinitrd⟩ : ∃ s₂, loadInitrd board files args s₁ = .ok s₂ := by
    cases hfile : args.initrd with
    | none => exact ⟨s₁, loadInitrd_of_none hfile files s₁⟩
    | some file =>
      obtain ⟨content, hcontent⟩ := hfiles file hfile
      exact ⟨_, (loadInitrd_eq_ok_iff hfile).mpr ⟨content, hcontent, rfl⟩⟩
  rw [load_eq_loadBench hprograms hinitrd]
  exact ⟨_, loadBench_eq_ok_iff.mpr ⟨cmd, hcmd, rfl⟩⟩

/-- Everything is in place after the loading phase when the encoded command leaves room for a zero
byte. -/
theorem loaded_of_lt (hstores : board.StoresExactly) {s s₁ s' : S} {cmd : Bytes}
    (hprograms : programs board args s = .ok s₁) (hcmd : encode args.command = .ok cmd)
    (hlen : cmd.length < benchCmdSize) (hload : load board files args s = .ok s') :
    Loaded board files args s' := by
  obtain ⟨s₂, hinitrd⟩ : ∃ s₂, loadInitrd board files args s₁ = .ok s₂ := by
    rw [load, hprograms, ok_bind] at hload
    obtain ⟨s₂, hinitrd, -⟩ := bind_eq_ok.mp hload
    exact ⟨s₂, hinitrd⟩
  rw [load_eq_loadBench hprograms hinitrd, loadBench_eq_ok_iff] at hload
  obtain ⟨cmd', hcmd', rfl⟩ := hload
  rw [hcmd] at hcmd'
  cases hcmd'
  refine ⟨fun file hfile => ?_, cmd, hcmd, ?_⟩
  · obtain ⟨content, hcontent, rfl⟩ := (loadInitrd_eq_ok_iff hfile).mp hinitrd
    refine ⟨content, hcontent, ?_⟩
    rw [hstores.writeBytes, holds_initrd_overwrite _ hlen, hstores.writeBytesChecked]
    exact holds_overwrite _ _ _
  · rw [hstores.writeBytes]
    exact holdsCommand_overwrite _ hlen

/-- A loading phase that returns has loaded the programs and the file and encoded the command. -/
theorem exists_of_load_eq_ok {s s' : S} (hload : load board files args s = .ok s') :
    ∃ s₁ cmd, programs board args s = .ok s₁ ∧
      (∀ file ∈ args.initrd, ∃ content, files file = .ok content) ∧
      encode args.command = .ok cmd := by
  obtain ⟨s₁, hprograms, hload⟩ := bind_eq_ok.mp hload
  obtain ⟨s₂, hinitrd, hbench⟩ := bind_eq_ok.mp hload
  obtain ⟨cmd, hcmd, -⟩ := loadBench_eq_ok_iff.mp hbench
  refine ⟨s₁, cmd, hprograms, fun file hfile => ?_, hcmd⟩
  obtain ⟨content, hcontent, -⟩ := (loadInitrd_eq_ok_iff hfile).mp hinitrd
  exact ⟨content, hcontent⟩

/-- **The loaded regions.** On a board that stores exactly what it is given: the loading phase stops
with an error or leaves the initrd and the zero-terminated command in their regions exactly when the
encoded command is shorter than its region, unless an error comes first. -/
theorem loads_iff (hstores : board.StoresExactly) (s : S) :
    LoadsOrStops board files args s ↔
      ∀ s₁ cmd, programs board args s = .ok s₁ →
        (∀ file ∈ args.initrd, ∃ content, files file = .ok content) →
        encode args.command = .ok cmd → cmd.length < benchCmdSize := by
  constructor
  · intro h s₁ cmd hprograms hfiles hcmd
    obtain ⟨s', hload⟩ := exists_load_eq_ok hprograms hfiles hcmd
    obtain ⟨cmd', hcmd', n, hn, hsize, -⟩ := (h s' hload).command
    rw [hcmd] at hcmd'
    cases hcmd'
    omega
  · intro h s' hload
    obtain ⟨s₁, cmd, hprograms, hfiles, hcmd⟩ := exists_of_load_eq_ok hload
    exact loaded_of_lt hstores hprograms hcmd (h s₁ cmd hprograms hfiles hcmd) hload

/-- The zero byte behind a command that fills its region is the first byte of the initrd's. -/
theorem overwrite_initrdAddr (m : ℕ → UInt8) {cmd : Bytes} (hlen : cmd.length = benchCmdSize) :
    overwrite m benchCmdAddr (cmd ++ List.replicate (max 1 (benchCmdSize - cmd.length)) 0)
      initrdAddr = 0 := by
  have hzero := holds_overwrite m benchCmdAddr
    (cmd ++ List.replicate (max 1 (benchCmdSize - cmd.length)) 0) cmd.length
    (by rw [List.length_append, List.length_replicate]; omega)
  rw [List.getElem_append_right le_rfl, List.getElem_replicate, hlen,
    benchCmdAddr_add_benchCmdSize] at hzero
  rwa [hlen]

/-- So it stands there after the loading phase. -/
theorem load_fills_region (hstores : board.StoresExactly) {s s₁ s₂ : S} {cmd : Bytes}
    (hprograms : programs board args s = .ok s₁)
    (hinitrd : loadInitrd board files args s₁ = .ok s₂)
    (hcmd : encode args.command = .ok cmd) (hlen : cmd.length = benchCmdSize) :
    ∃ s', load board files args s = .ok s' ∧ board.byte s' initrdAddr = 0 := by
  rw [load_eq_loadBench hprograms hinitrd]
  refine ⟨_, loadBench_eq_ok_iff.mpr ⟨cmd, hcmd, rfl⟩, ?_⟩
  rw [hstores.writeBytes]
  exact overwrite_initrdAddr _ hlen

/-! ## A board that is nothing but memory -/

/-- A board whose state is the contents of its DRAM. -/
def memoryBoard : Board (ℕ → UInt8) where
  loadProg := fun m _ _ => .ok m
  writeBytes := fun m addr bs _ => overwrite m addr bs
  writeBytesChecked := fun m addr bs _ => overwrite m addr bs
  byte := id

theorem memoryBoard_storesExactly : memoryBoard.StoresExactly :=
  ⟨fun _ _ _ _ => rfl, fun _ _ _ _ => rfl⟩

/-- Files that hold a single byte. -/
def oneByteFiles : List CodePoint → Except PyError Bytes := fun _ => .ok [1]

/-- The arguments with an initrd and the command `echo é`. -/
def accentedArgs : Args :=
  ⟨some [[]], some [ofChar 'i'], some ([101, 99, 104, 111, 32, 233] : List CodePoint)⟩

theorem encode_command_accentedArgs :
    encode accentedArgs.command = .ok [101, 99, 104, 111, 32, 195, 169] := by rfl

/-- Its six characters are seven bytes, and both regions are as they should be. -/
theorem loads_accented_command :
    ∃ m, load memoryBoard oneByteFiles accentedArgs (fun _ => 0) = .ok m ∧
      Loaded memoryBoard oneByteFiles accentedArgs m := by
  obtain ⟨m, hload⟩ := @exists_load_eq_ok _ memoryBoard oneByteFiles accentedArgs (fun _ => 0) _ _
    rfl (fun _ _ => ⟨_, rfl⟩) encode_command_accentedArgs
  refine ⟨m, hload, (loads_iff memoryBoard_storesExactly _).mpr (fun _ cmd _ _ hcmd => ?_) m hload⟩
  rw [encode_command_accentedArgs] at hcmd
  cases hcmd
  decide

/-- The arguments with an initrd and a command of 1024 times the letter `a`. -/
def longArgs : Args := ⟨some [[]], some [ofChar 'i'], some (List.replicate 1024 (ofChar 'a'))⟩

theorem encode_command_longArgs : encode longArgs.command = .ok (List.replicate 1024 97) := by
  have hencode := encode_map_ofChar (List.replicate 1024 'a')
  rw [List.map_replicate, List.flatMap_replicate,
    show String.utf8EncodeChar 'a' = [97] by decide, List.flatten_replicate_singleton] at hencode
  exact hencode

/-- A command that fills its region has its zero byte in the place of the first byte of the
initrd. -/
theorem long_command_overwrites :
    ([1] : Bytes).length ≤ maxInitrdSize ∧
      ¬ LoadsOrStops memoryBoard oneByteFiles longArgs (fun _ => 0) ∧
      ∃ m, load memoryBoard oneByteFiles longArgs (fun _ => 0) = .ok m ∧ m initrdAddr = 0 := by
  have hfills : ∃ m, load memoryBoard oneByteFiles longArgs (fun _ => 0) = .ok m ∧
      memoryBoard.byte m initrdAddr = 0 :=
    load_fills_region memoryBoard_storesExactly rfl rfl encode_command_longArgs
      List.length_replicate
  obtain ⟨m, hload, hzero⟩ := hfills
  refine ⟨by decide, fun h => ?_, m, hload, hzero⟩
  obtain ⟨content, hcontent, hholds⟩ := (h m hload).initrd [ofChar 'i'] rfl
  cases hcontent
  have hone : memoryBoard.byte m initrdAddr = 1 := hholds 0 Nat.zero_lt_one
  rw [hzero] at hone
  exact absurd hone (by decide)

/-! ## Commands that fit -/

/-- A command of up to 255 characters leaves room for a zero byte, whatever the characters. -/
theorem loads_of_length (hstores : board.StoresExactly) (hlen : args.command.length ≤ 255) (s : S) :
    LoadsOrStops board files args s := by
  intro s' hload
  obtain ⟨s₁, cmd, hprograms, -, hcmd⟩ := exists_of_load_eq_ok hload
  have hbound := (length_encode hcmd).2
  exact loaded_of_lt hstores hprograms hcmd (show cmd.length < 1024 by omega) hload

end BenchLx.Fpga
