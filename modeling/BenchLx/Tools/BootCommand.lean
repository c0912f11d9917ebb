import BenchLx.Common.Decimal
import BenchLx.Tools.LoadedRegions
import Mathlib.Data.List.DropRight

/-!
# The benchmark command on its way through the memory

Reference: `platforms/hw`, `tools/fpga.py` and `rootfs/etc/init.d/S50bench`. The host puts the
command behind a marker, into single quotes in a script, and has it written to the memory; the
script on the target reads one block from there and starts the benchmark with what follows the
marker. The two sides only share the number `0x17FFFC00`, and the shells drop some bytes on the way
(`bench_command_arrives_iff`).
-/

namespace BenchLx.Fpga

open Region

/-! ## The host -/

/-- The single quote. -/
def quote : CodePoint := ⟨39, by decide⟩

/-- The characters that a shell takes as they are outside of quotes: letters, digits and
`% + , - . / : = @ _`. -/
def isPlain (c : CodePoint) : Bool :=
  (97 ≤ c.val && c.val ≤ 122) || (64 ≤ c.val && c.val ≤ 90) || (43 ≤ c.val && c.val ≤ 58) ||
    c.val = 37 || c.val = 61 || c.val = 95

/-- What a shell makes of a text that is inside single quotes or not at its start, if that is one
word and its quotes are closed. -/
def unquote : Bool → List CodePoint → Option (List CodePoint)
  | true, [] => none
  | false, [] => some []
  | quoted, c :: text =>
    if c = quote then unquote (!quoted) text
    else if quoted || isPlain c then (unquote quoted text).map (c :: ·)
    else none

/-- The argument of `--bench` that the shell reads in the `run.sh` that `platforms/hw` writes for
the command in `BENCH_CMD`, unless quotes in the command break it up. -/
def hwBench (benchCmd : List CodePoint) : Option (List CodePoint) :=
  unquote false (quote :: "RUN_BENCH".toList.map ofChar ++ benchCmd ++ [quote])

/-! ## The script -/

/-- `dd if=/dev/mem ibs=IBS skip=SKIP count=1`: one block of the memory. -/
def dd (m : ℕ → UInt8) (ibs skip : ℕ) : Bytes :=
  (List.range ibs).map fun i => m (skip * ibs + i)

/-- What the shell makes of the output of a command: it drops zero bytes, and newlines at the
end. -/
def commandSubstitution (output : Bytes) : Bytes :=
  (output.filter fun b => b ≠ 0).rdropWhile fun b => b = 10

/-- The marker in front of a command. -/
def marker : Bytes := ascii "RUN_BENCH"

/-- `S50bench`: the argument that it starts `bench.sh` with, if it does. -/
def s50bench (m : ℕ → UInt8) : Option Bytes :=
  let str := commandSubstitution (dd m 1024 393215)
  if marker.isPrefixOf str then some (str.drop 9) else none

/-! ## What the shell reads -/

/-- The block is the region of the command. -/
theorem dd_of_holds {m : ℕ → UInt8} {xs : Bytes} (h : Holds m benchCmdAddr xs)
    (hlen : 1024 ≤ xs.length) : dd m 1024 393215 = xs.take 1024 := by
  refine List.ext_getElem (by simpa [dd] using hlen) fun i hi hi' => ?_
  rw [dd, List.length_map, List.length_range] at hi
  simp only [dd, List.getElem_map, List.getElem_range, List.getElem_take]
  exact h i (by omega)

/-- Only what stands behind the last byte that is not dropped can be dropped. -/
theorem rdropWhile_append {α : Type*} {p : α → Bool} {xs : List α} (hxs : xs.rdropWhile p = xs)
    (ys : List α) : (xs ++ ys).rdropWhile p = xs ++ ys.rdropWhile p := by
  induction ys using List.reverseRecOn with
  | nil => rw [List.append_nil, hxs, List.rdropWhile_nil, List.append_nil]
  | append_singleton ys y ih =>
    rw [← List.append_assoc]
    by_cases hy : p y = true
    · rw [List.rdropWhile_concat_pos _ _ _ hy, List.rdropWhile_concat_pos _ _ _ hy, ih]
    · rw [List.rdropWhile_concat_neg _ _ _ hy, List.rdropWhile_concat_neg _ _ _ hy,
        List.append_assoc]

theorem length_commandSubstitution_le (xs : Bytes) :
    (commandSubstitution xs).length ≤ (xs.filter fun b => b ≠ 0).length :=
  (List.rdropWhile_prefix _ _).length_le

theorem filter_of_commandSubstitution_eq {xs : Bytes} (h : commandSubstitution xs = xs) :
    (xs.filter fun b => b ≠ 0) = xs := by
  refine List.filter_sublist.eq_of_length_le ?_
  conv_lhs => rw [← h]
  exact length_commandSubstitution_le xs

theorem commandSubstitution_append {xs : Bytes} (hxs : commandSubstitution xs = xs) (ys : Bytes) :
    commandSubstitution (xs ++ ys) = xs ++ commandSubstitution ys := by
  have hfilter := filter_of_commandSubstitution_eq hxs
  rw [commandSubstitution, hfilter] at hxs
  rw [commandSubstitution, List.filter_append, hfilter, rdropWhile_append hxs]
  rfl

theorem commandSubstitution_append_zeros (xs : Bytes) (n : ℕ) :
    commandSubstitution (xs ++ List.replicate n 0) = commandSubstitution xs := by
  have hzeros : ((List.replicate n 0 : Bytes).filter fun b => b ≠ 0) = [] :=
    List.filter_eq_nil_iff.mpr fun b hb => by simp [List.eq_of_mem_replicate hb]
  rw [commandSubstitution, commandSubstitution, List.filter_append, hzeros, List.append_nil]

/-- Texts without zero bytes and without a newline at the end stay as they are. -/
theorem commandSubstitution_eq_self_iff {xs : Bytes} :
    commandSubstitution xs = xs ↔ 0 ∉ xs ∧ xs.getLast? ≠ some 10 := by
  constructor
  · intro hxs
    have hfilter := filter_of_commandSubstitution_eq hxs
    rw [commandSubstitution, hfilter, List.rdropWhile_eq_self_iff] at hxs
    refine ⟨fun h => ?_, fun h => ?_⟩
    · simpa using List.filter_eq_self.mp hfilter 0 h
    · obtain ⟨hne, hlast⟩ := List.mem_getLast?_eq_getLast (Option.mem_def.mpr h)
      exact hxs hne (by simp [← hlast])
  · intro ⟨hzero, hlast⟩
    have hfilter : (xs.filter fun b => b ≠ 0) = xs :=
      List.filter_eq_self.mpr fun b hb => by simpa using fun h : b = 0 => hzero (h ▸ hb)
    rw [commandSubstitution, hfilter, List.rdropWhile_eq_self_iff]
    intro hne h
    exact hlast (by rw [List.getLast?_eq_some_getLast hne]; simpa using h)

theorem marker_eq : marker = [82, 85, 78, 95, 66, 69, 78, 67, 72] := by decide

theorem commandSubstitution_marker : commandSubstitution marker = marker := by
  rw [commandSubstitution_eq_self_iff, marker_eq]
  decide

theorem length_marker : marker.length = 9 := by rw [marker_eq]; rfl

/-- The script starts the command behind the marker. -/
theorem s50bench_of_marker {m : ℕ → UInt8} {str : Bytes}
    (h : commandSubstitution (dd m 1024 393215) = marker ++ str) : s50bench m = some str := by
  have hstarts : marker.isPrefixOf (marker ++ str) = true :=
    List.isPrefixOf_iff_prefix.mpr (List.prefix_append _ _)
  rw [s50bench, h]
  simp only [hstarts, if_true, ← length_marker, List.drop_left]

/-! ## What the host has written -/

theorem encode_append {str str' : List CodePoint} {bs bs' : Bytes} (h : encode str = .ok bs)
    (h' : encode str' = .ok bs') : encode (str ++ str') = .ok (bs ++ bs') := by
  induction str generalizing bs with
  | nil =>
    cases h
    exact h'
  | cons c str ih =>
    obtain ⟨cs, hc, h⟩ := bind_eq_ok.mp h
    obtain ⟨rest, hrest, h⟩ := bind_eq_ok.mp h
    cases h
    rw [List.cons_append, encode, hc, ok_bind, ih hrest, ok_bind, List.append_assoc]
    rfl

/-- Of one word, quoted in parts or not, the shell drops the quotes. -/
theorem eq_filter_of_unquote {quoted : Bool} {text word : List CodePoint}
    (h : unquote quoted text = some word) : word = text.filter fun c => c ≠ quote := by
  induction text generalizing quoted word with
  | nil =>
    cases quoted with
    | true => cases h
    | false => exact (Option.some.inj h).symm
  | cons c text ih =>
    rw [unquote] at h
    by_cases hc : c = quote
    · rw [if_pos hc] at h
      rw [List.filter_cons_of_neg (by simpa using hc)]
      exact ih h
    · rw [if_neg hc] at h
      split at h
      · obtain ⟨rest, hrest, rfl⟩ := Option.map_eq_some_iff.mp h
        rw [List.filter_cons_of_pos (by simpa using hc), ih hrest]
      · cases h

/-- Inside quotes every character but the quote stands for itself. -/
theorem unquote_append {text : List CodePoint} (htext : quote ∉ text) (rest : List CodePoint) :
    unquote true (text ++ rest) = (unquote true rest).map (text ++ ·) := by
  induction text with
  | nil => simp
  | cons c text ih =>
    obtain ⟨hc, htext⟩ := not_or.mp (List.mem_cons.not.mp htext)
    rw [List.cons_append, unquote, if_neg (Ne.symm hc), Bool.true_or, if_pos rfl, ih htext,
      Option.map_map]
    rfl

/-- A command without a single quote is passed as it is. -/
theorem hwBench_of_notMem {benchCmd : List CodePoint} (h : quote ∉ benchCmd) :
    hwBench benchCmd = some ("RUN_BENCH".toList.map ofChar ++ benchCmd) := by
  have htext : quote ∉ "RUN_BENCH".toList.map ofChar ++ benchCmd := by
    rw [List.mem_append, not_or]
    exact ⟨by decide, h⟩
  rw [hwBench, List.cons_append, List.cons_append, unquote, if_pos rfl, Bool.not_false,
    unquote_append htext]
  simp [unquote]

theorem ne_of_mem_encodeChar {c : CodePoint} {bs : Bytes} (h : encodeChar c = .ok bs)
    (hc : c ≠ quote) {b : UInt8} (hb : b ∈ bs) : b ≠ 39 := by
  rintro rfl
  rw [encodeChar] at h
  split at h
  case isTrue hvalid =>
    cases h
    have hsame := toNat_of_mem_utf8EncodeChar hb (by decide)
    rw [Char.ofNat, dif_pos hvalid] at hsame
    exact hc (Fin.ext hsame.symm)
  case isFalse => cases h

/-- Quotes are dropped before or after the encoding. -/
theorem encode_filter_quote {str : List CodePoint} {bs : Bytes} (h : encode str = .ok bs) :
    encode (str.filter fun c => c ≠ quote) = .ok (bs.filter fun b => b ≠ 39) := by
  induction str generalizing bs with
  | nil =>
    cases h
    rfl
  | cons c str ih =>
    obtain ⟨cs, hcs, h⟩ := bind_eq_ok.mp h
    obtain ⟨rest, hrest, h⟩ := bind_eq_ok.mp h
    cases h
    rw [List.filter_append]
    by_cases hc : c = quote
    · subst hc
      obtain rfl : [39] = cs := Except.ok.inj hcs
      rw [List.filter_cons_of_neg (by simp)]
      exact ih hrest
    · have hkept : (cs.filter fun b => b ≠ 39) = cs :=
        List.filter_eq_self.mpr fun b hb => by simpa using ne_of_mem_encodeChar hcs hc hb
      rw [List.filter_cons_of_pos (by simpa using hc), hkept]
      rw [encode, hcs, ok_bind, ih hrest, ok_bind]
      rfl

theorem encode_hwBench {benchCmd arg : List CodePoint} {bs : Bytes}
    (harg : hwBench benchCmd = some arg) (h : encode benchCmd = .ok bs) :
    encode arg = .ok (marker ++ bs.filter fun b => b ≠ 39) := by
  have hmarker : ((quote :: "RUN_BENCH".toList.map ofChar).filter fun c => c ≠ quote)
      = "RUN_BENCH".toList.map ofChar := by decide
  have hend : ([quote].filter fun c => c ≠ quote) = [] := by decide
  rw [eq_filter_of_unquote harg, List.filter_append, List.filter_append, hmarker, hend,
    List.append_nil]
  refine encode_append ?_ (encode_filter_quote h)
  rw [encode_map_ofChar, marker_eq]
  decide

section Memory

variable {S : Type} {board : Board S} {files : List CodePoint → Except PyError Bytes} {args : Args}

/-- After the loading phase the command and the zeros behind it stand in the memory. -/
theorem holds_of_load (hstores : board.StoresExactly) {s s' : S}
    (hload : load board files args s = .ok s') {cmd : Bytes}
    (hcmd : encode args.command = .ok cmd) :
    Holds (board.byte s') benchCmdAddr
      (cmd ++ List.replicate (max 1 (benchCmdSize - cmd.length)) 0) := by
  obtain ⟨s₁, -, hload⟩ := bind_eq_ok.mp hload
  obtain ⟨s₂, -, hbench⟩ := bind_eq_ok.mp hload
  obtain ⟨cmd', hcmd', rfl⟩ := loadBench_eq_ok_iff.mp hbench
  rw [hcmd] at hcmd'
  cases hcmd'
  rw [hstores.writeBytes]
  exact holds_overwrite _ _ _

/-- The block that the script reads, when the region has not changed since. -/
theorem dd_of_load (hstores : board.StoresExactly) {s s' : S}
    (hload : load board files args s = .ok s') {m : ℕ → UInt8}
    (hm : ∀ i < benchCmdSize, m (benchCmdAddr + i) = board.byte s' (benchCmdAddr + i))
    {cmd : Bytes} (hcmd : encode args.command = .ok cmd) :
    dd m 1024 393215
      = (cmd ++ List.replicate (max 1 (benchCmdSize - cmd.length)) 0).take 1024 := by
  have hholds := holds_of_load hstores hload hcmd
  have hsize : benchCmdSize = 1024 := rfl
  have hlen : 1024 ≤ (cmd ++ List.replicate (max 1 (benchCmdSize - cmd.length)) 0).length := by
    rw [List.length_append, List.length_replicate, hsize]
    omega
  have hread : dd m 1024 393215 = dd (board.byte s') 1024 393215 :=
    List.map_congr_left fun i hi => hm i (List.mem_range.mp hi)
  rw [hread, dd_of_holds hholds hlen]

/-- What the script makes of the command of `platforms/hw`. -/
theorem s50bench_of_load (hstores : board.StoresExactly) {s s' : S}
    (hload : load board files args s = .ok s') {m : ℕ → UInt8}
    (hm : ∀ i < benchCmdSize, m (benchCmdAddr + i) = board.byte s' (benchCmdAddr + i))
    {benchCmd arg : List CodePoint} {bs : Bytes} (harg : hwBench benchCmd = some arg)
    (hbench : args.bench = some arg) (hbs : encode benchCmd = .ok bs) :
    s50bench m = some (commandSubstitution ((bs.filter fun b => b ≠ 39).take 1015)) := by
  have hcmd : encode args.command = .ok (marker ++ bs.filter fun b => b ≠ 39) := by
    rw [Args.command, hbench]
    exact encode_hwBench harg hbs
  refine s50bench_of_marker ?_
  rw [dd_of_load hstores hload hm hcmd, List.append_assoc, List.take_append, length_marker,
    List.take_of_length_le (by rw [length_marker]; omega),
    commandSubstitution_append commandSubstitution_marker, List.take_append,
    List.take_replicate, commandSubstitution_append_zeros]

/-- **The command arrives.** Let the loading phase return on a board that stores exactly what it is
given, and let the script run on a memory whose region of the command has not changed since. Without
`--bench` the script starts nothing. For a command from `platforms/hw` that its own quotes do not
break up it starts `bench.sh` with the first 1015 bytes of the encoded command without its single
quotes, less zero bytes and newlines at the end; so it is the command itself exactly when that has
no single quote, at most 1015 bytes, no zero byte and no newline at its end. -/
theorem bench_command_arrives_iff (hstores : board.StoresExactly) (s s' : S)
    (hload : load board files args s = .ok s') (m : ℕ → UInt8)
    (hm : ∀ i < benchCmdSize, m (benchCmdAddr + i) = board.byte s' (benchCmdAddr + i)) :
    (args.bench = none → s50bench m = none) ∧
    ∀ benchCmd arg bs, hwBench benchCmd = some arg → args.bench = some arg →
      encode benchCmd = .ok bs →
      s50bench m = some (commandSubstitution ((bs.filter fun b => b ≠ 39).take 1015)) ∧
      (s50bench m = some bs ↔ 39 ∉ bs ∧ bs.length ≤ 1015 ∧ 0 ∉ bs ∧ bs.getLast? ≠ some 10) := by
  constructor
  · intro hnone
    have hcmd : encode args.command = .ok [] := by
      rw [Args.command, hnone]
      rfl
    rw [s50bench, dd_of_load hstores hload hm hcmd, List.nil_append, List.take_replicate,
      ← List.nil_append (List.replicate _ _), commandSubstitution_append_zeros, marker_eq]
    decide
  · intro benchCmd arg bs harg hbench hbs
    have hstarted := s50bench_of_load hstores hload hm harg hbench hbs
    refine ⟨hstarted, ?_⟩
    rw [hstarted, Option.some_inj]
    constructor
    · intro hsame
      -- nothing is shortened, so nothing has been dropped
      have hle := (length_commandSubstitution_le _).trans
        (List.length_filter_le (fun b => b ≠ 0) ((bs.filter fun b => b ≠ 39).take 1015))
      rw [hsame, List.length_take] at hle
      have hbare : (bs.filter fun b => b ≠ 39) = bs :=
        List.filter_sublist.eq_of_length_le (hle.trans (Nat.min_le_right _ _))
      have hlen : bs.length ≤ 1015 := hle.trans (Nat.min_le_left _ _)
      rw [hbare, List.take_of_length_le hlen, commandSubstitution_eq_self_iff] at hsame
      exact ⟨fun h => by simpa using List.filter_eq_self.mp hbare 39 h, hlen, hsame⟩
    · intro ⟨hquote, hlen, hkept⟩
      have hbare : (bs.filter fun b => b ≠ 39) = bs :=
        List.filter_eq_self.mpr fun b hb => by simpa using fun h : b = 39 => hquote (h ▸ hb)
      rw [hbare, List.take_of_length_le hlen]
      exact commandSubstitution_eq_self_iff.mpr hkept

end Memory

/-- The command `ls -l`, on a board that is nothing but memory. -/
theorem bench_command_arrives_ls :
    ∃ arg m, hwBench ("ls -l".toList.map ofChar) = some arg ∧
      load memoryBoard oneByteFiles ⟨some [[]], none, some arg⟩ (fun _ => 0) = .ok m ∧
      s50bench m = some (ascii "ls -l") := by
  have hencode := encode_map_ofChar "ls -l".toList
  have harg := @hwBench_of_notMem ("ls -l".toList.map ofChar) (by decide)
  obtain ⟨m, hload⟩ := @exists_load_eq_ok _ memoryBoard oneByteFiles ⟨some [[]], none, some _⟩
    (fun _ => 0) _ _ rfl (by simp) (encode_hwBench harg hencode)
  obtain ⟨-, harrives⟩ := bench_command_arrives_iff memoryBoard_storesExactly _ m hload m
    fun _ _ => rfl
  exact ⟨_, m, harg, hload, (harrives _ _ _ harg rfl hencode).2.mpr (by decide)⟩

end BenchLx.Fpga
