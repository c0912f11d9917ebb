import BenchLx.Ycsb.UdpHandler
import BenchLx.Ycsb.WireFormat

/-!
# Replaying a workload file

`create_spec` says what the constructor leaves of a file that is read without failures. From there
on the position of the handler is behind some complete operations of the file (`Replays`); each call
of `receive` keeps that as long as the header of another operation is left
(`replay_inside_iff`).
-/

namespace BenchLx.Ycsb

/-! ## Loading the file -/

/-- The loading loop appends what is left of the file, as far as it fits. -/
theorem loadLoop_spec {reads : List Transfer} (hreads : Delivering reads) {file : Bytes}
    {buf : Buffer maxFileSize} {wlSize : ℕ} (hsize : wlSize ≤ maxFileSize) {loaded : Loaded}
    (h : loadLoop reads file buf wlSize = .ok loaded) :
    loaded.size = wlSize + (file.take (maxFileSize - wlSize)).length ∧
      buf.store wlSize (file.take (maxFileSize - wlSize)) = .ok loaded.buffer := by
  have hmax : maxFileSize < sizeMod := by decide
  induction reads generalizing file buf wlSize loaded with
  | nil => cases h
  | cons t reads ih =>
    obtain ⟨k, rfl⟩ := hreads t (by simp)
    rw [loadLoop, sizeSub_of_le hsize hmax] at h
    obtain ⟨buf', hbuf, h⟩ := bind_eq_ok.mp h
    have hlen := (Transfer.upTo (k + 1)).length_data_le file (maxFileSize - wlSize)
    rw [Transfer.res_upTo, toSize_natCast (by omega)] at h
    dsimp only at h
    split at h
    case isTrue hpos =>
      obtain ⟨rest, hrest, h⟩ := bind_eq_ok.mp h
      cases h
      rw [sizeAdd_of_lt (by omega)] at hrest
      obtain ⟨hrestSize, hstore⟩ := ih (fun t ht => hreads t (by simp [ht])) (by omega) hrest
      rw [Transfer.take_eq (.upTo (k + 1)) file, Nat.sub_sub]
      refine ⟨?_, Buffer.store_append hbuf hstore⟩
      rw [List.length_append, ← Nat.add_assoc]
      exact hrestSize
    case isFalse hpos =>
      cases h
      have hnil : ((Transfer.upTo (k + 1)).read file (maxFileSize - wlSize)).data = [] :=
        List.length_eq_zero_iff.mp (by omega)
      rw [hnil] at hbuf
      rw [Transfer.take_eq_nil hnil]
      exact ⟨rfl, hbuf⟩

theorem wlRead4b_eq_ok {buf : Buffer maxFileSize} {pos n pos' : ℕ}
    (h : wlRead4b buf pos = .ok (n, pos')) :
    ∃ bs, bs.length = 4 ∧ (buf.ptr 0).Holds pos bs ∧ n = ofBytesBE bs ∧ pos' = sizeAdd pos 4 := by
  obtain ⟨bs, hbs, h⟩ := bind_eq_ok.mp h
  cases h
  obtain ⟨hlen, hheld⟩ := Ptr.read_eq_ok_iff.mp hbs
  exact ⟨bs, hlen, Buffer.holds_ptr_iff.mp hheld, rfl, rfl⟩

/-- The part of a workload file that is loaded. -/
def loadedBytes (file : Bytes) : Bytes :=
  file.take maxFileSize

/-- The operation count in the header of a workload file. -/
def operationCount (file : Bytes) : ℕ :=
  ofBytesBE ((file.drop 4).take 4)

namespace UDPOpHandler

/-- The handler has loaded the bytes `w`. -/
structure Holds (h : UDPOpHandler) (w : Bytes) : Prop where
  fits : w.length ≤ maxFileSize
  size_eq : h.wlSize = w.length
  held : (h.wlBuffer.ptr 0).Holds 0 w

/-- The header words as the constructor reads them, whatever it has loaded. -/
theorem header_of_create {contents : Buffer maxFileSize} {reads : List Transfer} {file : Bytes}
    {writes : ℕ → Transfer} {h : UDPOpHandler}
    (hcreate : create contents reads file writes = .ok h) :
    h.wlPos = 8 ∧ h.ops = 0 ∧ ∃ bs, bs.length = 4 ∧ (h.wlBuffer.ptr 0).Holds 4 bs ∧
      h.totalOps.toNat = ofBytesBE bs := by
  obtain ⟨loaded, hload, hcreate⟩ := bind_eq_ok.mp hcreate
  obtain ⟨⟨preins, pos⟩, hpreins, hcreate⟩ := bind_eq_ok.mp hcreate
  obtain ⟨⟨total, pos'⟩, htotal, hcreate⟩ := bind_eq_ok.mp hcreate
  cases hcreate
  obtain ⟨_, -, -, -, rfl⟩ := wlRead4b_eq_ok hpreins
  obtain ⟨bs, hlen, hbs, rfl, rfl⟩ := wlRead4b_eq_ok htotal
  have hlt := ofBytesBE_lt bs
  rw [hlen] at hlt
  refine ⟨rfl, rfl, bs, hlen, hbs, ?_⟩
  rw [UInt64.toNat_ofNat', Nat.mod_eq_of_lt (lt_trans hlt (by decide))]

/-- The operation count of the handler is the one of the file. -/
theorem totalOps_of_create {contents : Buffer maxFileSize} {reads : List Transfer}
    {file w : Bytes} {writes : ℕ → Transfer} {h : UDPOpHandler}
    (hcreate : create contents reads file writes = .ok h) (hholds : h.Holds w)
    (hheader : 8 ≤ w.length) : h.totalOps.toNat = operationCount w := by
  obtain ⟨-, -, bs, hlen, hbs, htotal⟩ := header_of_create hcreate
  have hdrop := hholds.held.drop (n := 4) (by omega)
  have hstart := hbs.isPrefix hdrop (by rw [hlen, List.length_drop]; omega)
  rw [List.prefix_iff_eq_take, hlen] at hstart
  rw [htotal, operationCount, ← hstart]

/-- What the constructor leaves. -/
theorem create_spec {contents : Buffer maxFileSize} {reads : List Transfer} {file : Bytes}
    {writes : ℕ → Transfer} {h : UDPOpHandler} (hreads : Delivering reads) (hfile : 8 ≤ file.length)
    (hcreate : create contents reads file writes = .ok h) :
    h.Holds (loadedBytes file) ∧ h.wlPos = 8 ∧ h.ops = 0 ∧
      h.totalOps.toNat = operationCount file := by
  have hholds : h.Holds (loadedBytes file) := by
    obtain ⟨loaded, hload, hcreate⟩ := bind_eq_ok.mp hcreate
    obtain ⟨⟨preins, pos⟩, -, hcreate⟩ := bind_eq_ok.mp hcreate
    obtain ⟨⟨total, pos'⟩, -, hcreate⟩ := bind_eq_ok.mp hcreate
    cases hcreate
    obtain ⟨hsize, hstore⟩ := loadLoop_spec hreads (Nat.zero_le _) hload
    rw [Nat.sub_zero, Nat.zero_add] at hsize
    rw [Nat.sub_zero] at hstore
    exact ⟨by simp [loadedBytes], hsize, Buffer.holds_store hstore⟩
  obtain ⟨hpos, hops, -⟩ := header_of_create hcreate
  refine ⟨hholds, hpos, hops, ?_⟩
  have hcap : 8 ≤ maxFileSize := by decide
  rw [totalOps_of_create hcreate hholds (by rw [loadedBytes, List.length_take]; omega),
    operationCount, operationCount, loadedBytes, List.drop_take, List.take_take,
    Nat.min_eq_left (by omega)]

/-! ## One call of `receive` -/

/-- The ways in which a call of `receive` returns. -/
inductive Receives (h : UDPOpHandler) (pkg : Package) : Result → Package → UDPOpHandler → Prop
  | stop (hdone : h.totalOps ≤ h.ops) : Receives h pkg .stop pkg h
  | replay (readSize : ℕ) (request : Bytes) {pkg' : Package} (hleft : h.ops < h.totalOps)
      (hparse : fromBytes (h.wlBuffer.ptr h.wlPos) (sizeSub h.wlSize h.wlPos) pkg
        = .ok (readSize, pkg'))
      (hrequest : (h.wlBuffer.ptr 0).read 0 readSize = .ok request) :
      Receives h pkg .ready pkg'
        { h with
          wlPos := sizeAdd h.wlPos readSize
          ops := h.ops + 1
          writes := fun k => h.writes (k + 1)
          requests := h.requests ++ [request] }

theorem receive_eq_ok_iff {h h' : UDPOpHandler} {pkg pkg' : Package} {res : Result} :
    h.receive pkg = .ok (res, pkg', h') ↔ Receives h pkg res pkg' h' := by
  rw [receive]
  constructor
  · intro hreceive
    split at hreceive
    case isTrue hdone =>
      cases hreceive
      exact .stop hdone
    case isFalse hleft =>
      obtain ⟨⟨readSize, pkg''⟩, hparse, hreceive⟩ := bind_eq_ok.mp hreceive
      obtain ⟨request, hrequest, hreceive⟩ := bind_eq_ok.mp hreceive
      cases hreceive
      exact .replay _ _ (UInt64.not_le.mp hleft) hparse hrequest
  · intro hreceives
    cases hreceives with
    | stop hdone => exact if_pos hdone
    | replay readSize request hleft hparse hrequest =>
      rw [if_neg (UInt64.not_le.mpr hleft), hparse, ok_bind]
      simp only [hrequest, ok_bind]
      rfl

/-! ## Staying inside the file -/

/-- Every byte that `from_bytes` inspects in the next call of `receive` lies below `wl_size`: the
call of `from_bytes` returns when all bytes from there on are taken away. -/
def InspectsBelow (h : UDPOpHandler) : Prop :=
  ∃ out, fromBytes ((h.wlBuffer.ptr h.wlPos).restrict (h.wlSize - h.wlPos))
    (sizeSub h.wlSize h.wlPos) Package.fresh = .ok out

/-- The operations as bytes, one after the other. -/
def encodeAll (ms : List Message) : Bytes :=
  ms.flatMap fun m => m.encode

/-- The handler stands in the loaded bytes `w` behind the complete operations `ms`, at most as many
as it has counted, with `tail` left to replay. -/
structure Replays (h : UDPOpHandler) (w : Bytes) (ms : List Message) (tail : Bytes) : Prop
    extends h.Holds w where
  header_le : 8 ≤ w.length
  bytes_eq : w.drop 8 = encodeAll ms ++ tail
  pos_eq : h.wlPos = 8 + (encodeAll ms).length
  length_le : ms.length ≤ h.ops.toNat

theorem encodeAll_concat (ms : List Message) (m : Message) :
    encodeAll (ms ++ [m]) = encodeAll ms ++ m.encode := by
  simp [encodeAll]

section Replay

variable {h h' : UDPOpHandler} {w tail : Bytes} {ms : List Message}

theorem Replays.size_eq_add (hr : h.Replays w ms tail) : h.wlSize = h.wlPos + tail.length := by
  have hlen := congrArg List.length hr.bytes_eq
  rw [List.length_drop, List.length_append] at hlen
  have hheader := hr.header_le
  rw [hr.size_eq, hr.pos_eq]
  omega

theorem Replays.size_lt (hr : h.Replays w ms tail) : h.wlSize < sizeMod := by
  rw [hr.size_eq]
  exact lt_of_le_of_lt hr.fits (by decide)

theorem Replays.sizeSub_eq (hr : h.Replays w ms tail) : sizeSub h.wlSize h.wlPos = tail.length := by
  have hsize := hr.size_eq_add
  rw [sizeSub_of_le (by omega) hr.size_lt]
  omega

/-- Moving within what is left does not wrap. -/
theorem Replays.sizeAdd_eq (hr : h.Replays w ms tail) {n : ℕ} (hn : n ≤ tail.length) :
    sizeAdd h.wlPos n = h.wlPos + n := by
  have hsize := hr.size_eq_add
  have hlt := hr.size_lt
  exact sizeAdd_of_lt (by omega)

/-- What is left to replay is what stands at the position of the handler. -/
theorem Replays.tail_held (hr : h.Replays w ms tail) :
    (h.wlBuffer.ptr h.wlPos).Holds 0 tail := by
  have hdrop := hr.held.drop hr.header_le
  rw [hr.bytes_eq, Ptr.holds_append, Nat.zero_add] at hdrop
  rw [Buffer.holds_ptr_iff, hr.pos_eq]
  exact hdrop.2

/-- With a header left `from_bytes` stays inside what is left. -/
theorem Replays.inspectsBelow (hr : h.Replays w ms tail) (htail : 19 ≤ tail.length) :
    h.InspectsBelow := by
  have hne : tail ≠ [] := List.ne_nil_of_length_pos (by omega)
  have hleft : h.wlSize - h.wlPos = tail.length := by
    have hsize := hr.size_eq_add
    omega
  have hcovers : ((h.wlBuffer.ptr h.wlPos).restrict tail.length).Covers tail.length :=
    Ptr.Covers.of_holds ((Ptr.holds_restrict_iff hne).mpr ⟨by omega, hr.tail_held⟩)
  obtain ⟨r, pkg', hparse⟩ := fromBytes_returns (fun i hi => hcovers i (by omega)) hcovers
    Package.fresh
  refine ⟨(r, pkg'), ?_⟩
  rw [hleft, hr.sizeSub_eq]
  exact hparse

/-- Without one it does not. -/
theorem Replays.not_inspectsBelow (hr : h.Replays w ms tail) (htail : tail.length < 19) :
    ¬ h.InspectsBelow := by
  intro ⟨⟨r, pkg'⟩, hparse⟩
  obtain ⟨b, hb⟩ := covers_of_fromBytes hparse 18 (by omega)
  have hsize := hr.size_eq_add
  have hlt := (Ptr.restrict_eq_ok_iff.mp hb).1
  omega

/-- Rewinding leaves everything to replay. -/
theorem Holds.reset (hh : h.Holds w) (hheader : 8 ≤ w.length) :
    h.reset.Replays w [] (w.drop 8) where
  fits := hh.fits
  size_eq := hh.size_eq
  held := hh.held
  header_le := hheader
  bytes_eq := rfl
  pos_eq := rfl
  length_le := Nat.zero_le _

theorem Replays.reset (hr : h.Replays w ms tail) : h.reset.Replays w [] (w.drop 8) :=
  hr.toHolds.reset hr.header_le

/-- A replayed operation moves from what is left to what is behind the handler. -/
theorem Replays.advance {m : Message} {rest : Bytes} (hr : h.Replays w ms (m.encode ++ rest))
    (hpos : h'.wlPos = sizeAdd h.wlPos m.encode.length) (hbuf : h'.wlBuffer = h.wlBuffer)
    (hsize : h'.wlSize = h.wlSize) (hops : h'.ops.toNat = h.ops.toNat + 1) :
    h'.Replays w (ms ++ [m]) rest := by
  refine ⟨⟨hr.fits, hsize.trans hr.size_eq, hbuf ▸ hr.held⟩, hr.header_le, ?_, ?_, ?_⟩
  · rw [hr.bytes_eq, encodeAll_concat, List.append_assoc]
  · rw [hpos, hr.sizeAdd_eq (by simp), hr.pos_eq, encodeAll_concat, List.length_append]
    omega
  · rw [List.length_append, List.length_singleton, hops]
    exact Nat.succ_le_succ hr.length_le

theorem toNat_add_one {a b : UInt64} (h : a < b) : (a + 1).toNat = a.toNat + 1 := by
  have hlt : a.toNat < b.toNat := UInt64.lt_iff_toNat_lt.mp h
  have hb := b.toNat_lt
  rw [UInt64.toNat_add]
  exact Nat.mod_eq_of_lt (by simp only [UInt64.toNat_one]; omega)

/-- **One call of `receive`** with a header left: the handler is behind one operation more, or where
it was. -/
theorem Replays.receive (hr : h.Replays w ms tail) (htail : h.ops < h.totalOps → 19 ≤ tail.length)
    {res : Result} {pkg' : Package} (hreceive : h.receive Package.fresh = .ok (res, pkg', h')) :
    (∃ ms' tail', h'.Replays w ms' tail') ∧ h'.totalOps = h.totalOps := by
  cases receive_eq_ok_iff.mp hreceive with
  | stop => exact ⟨⟨ms, tail, hr⟩, rfl⟩
  | replay readSize request hleft hparse hrequest =>
    refine ⟨?_, rfl⟩
    rw [hr.sizeSub_eq] at hparse
    by_cases hzero : readSize = 0
    · -- the operation is rejected and the position stays
      subst hzero
      refine ⟨ms, tail, ⟨hr.fits, hr.size_eq, hr.held⟩, hr.header_le, hr.bytes_eq, ?_, ?_⟩
      · rw [hr.sizeAdd_eq (Nat.zero_le _)]
        exact hr.pos_eq
      · rw [toNat_add_one hleft]
        exact Nat.le_succ_of_le hr.length_le
    · obtain ⟨m, hm, hend, rfl, -⟩ := (fromBytes_accepts_iff rfl).mp ⟨hparse, hzero⟩
      have hle : m.encode.length ≤ tail.length := by
        by_cases hpairs : m.kvPairs = []
        · rw [Package.length_encode, hpairs]
          exact htail hleft
        · exact hend hpairs
      obtain ⟨rest, rfl⟩ := hm.isPrefix hr.tail_held hle
      exact ⟨ms ++ [m], rest, hr.advance rfl rfl rfl (toNat_add_one hleft)⟩

/-- **A run of calls.** As long as a header is left wherever the handler can get to, it stays behind
complete operations. -/
theorem Replays.runCalls (hinside : ∀ (ms : List Message) (tail : Bytes),
      w.drop 8 = encodeAll ms ++ tail → ms.length < h.totalOps.toNat → 19 ≤ tail.length)
    (hr : h.Replays w ms tail) {calls : List Call} (hrun : runCalls calls h = .ok h') :
    (∃ ms' tail', h'.Replays w ms' tail') ∧ h'.totalOps = h.totalOps := by
  induction calls generalizing h ms tail with
  | nil =>
    cases hrun
    exact ⟨⟨ms, tail, hr⟩, rfl⟩
  | cons call calls ih =>
    cases call with
    | receive =>
      obtain ⟨⟨res, pkg', h₁⟩, hreceive, hrun⟩ := bind_eq_ok.mp hrun
      have hleft : h.ops < h.totalOps → 19 ≤ tail.length := by
        intro hops
        have hlt : h.ops.toNat < h.totalOps.toNat := UInt64.lt_iff_toNat_lt.mp hops
        exact hinside ms tail hr.bytes_eq (lt_of_le_of_lt hr.length_le hlt)
      obtain ⟨⟨ms₁, tail₁, hr₁⟩, htotal⟩ := hr.receive hleft hreceive
      rw [← htotal] at hinside ⊢
      exact ih hinside hr₁ hrun
    | reset => exact ih (h := h.reset) hinside hr.reset hrun

/-- A complete operation is decoded as it is. -/
theorem Replays.parse_eq {m : Message} (hr : h.Replays w ms (m.encode ++ tail)) :
    fromBytes (h.wlBuffer.ptr h.wlPos) (sizeSub h.wlSize h.wlPos) Package.fresh
      = .ok (m.encode.length, m.toPackage) := by
  have hheld := (Ptr.holds_append.mp hr.tail_held).1
  rw [hr.sizeSub_eq]
  exact ((fromBytes_accepts_iff rfl).mpr ⟨m, hheld, fun _ => by simp, rfl, rfl⟩).1

/-- A complete operation that is counted is replayed. -/
theorem Replays.replay_one {m : Message} (hr : h.Replays w ms (m.encode ++ tail))
    (hleft : h.ops < h.totalOps) :
    ∃ h', h.receive Package.fresh = .ok (.ready, m.toPackage, h') ∧
      h'.Replays w (ms ++ [m]) tail ∧ h'.ops.toNat = h.ops.toNat + 1 ∧
      h'.totalOps = h.totalOps := by
  have hle : m.encode.length ≤ maxFileSize := by
    have hsize := hr.size_eq_add
    have hfits := hr.fits
    rw [hr.size_eq, List.length_append] at hsize
    omega
  have hcovers : (h.wlBuffer.ptr 0).Covers maxFileSize := Buffer.covers_ptr (by omega)
  obtain ⟨request, hrequest⟩ := hcovers.read 0 m.encode.length (by omega)
  exact ⟨_, receive_eq_ok_iff.mpr (.replay _ request hleft hr.parse_eq
    (Ptr.read_eq_ok_iff.mpr hrequest)), hr.advance rfl rfl rfl (toNat_add_one hleft),
    toNat_add_one hleft, rfl⟩

/-- Complete operations that are counted are replayed one by one. -/
theorem Replays.replay_all {more : List Message} (hr : h.Replays w ms (encodeAll more ++ tail))
    (hcount : h.ops.toNat + more.length ≤ h.totalOps.toNat) :
    ∃ h', UDPOpHandler.runCalls (List.replicate more.length .receive) h = .ok h' ∧
      h'.Replays w (ms ++ more) tail ∧ h'.ops.toNat = h.ops.toNat + more.length ∧
      h'.totalOps = h.totalOps := by
  induction more generalizing h ms with
  | nil => exact ⟨h, rfl, by simpa [encodeAll] using hr, rfl, rfl⟩
  | cons m more ih =>
    rw [List.length_cons] at hcount
    have hr' : h.Replays w ms (m.encode ++ (encodeAll more ++ tail)) := by
      rw [← List.append_assoc]
      exact hr
    obtain ⟨h₁, hreceive, hr₁, hops₁, htotal₁⟩ :=
      hr'.replay_one (UInt64.lt_iff_toNat_lt.mpr (by omega))
    obtain ⟨h', hrun, hr'', hops', htotal'⟩ := ih hr₁ (by rw [htotal₁]; omega)
    refine ⟨h', ?_, by simpa using hr'', ?_, htotal'.trans htotal₁⟩
    · rw [List.length_cons, List.replicate_succ, UDPOpHandler.runCalls, hreceive]
      exact hrun
    · rw [hops', List.length_cons]
      omega

end Replay

/-- **When the handler stays inside the file.** After the constructor has loaded a file with both
header words, the position stays within the size and `from_bytes` looks at no byte beyond it, in
every state that calls of `receive` and `reset` lead to, exactly when 19 bytes are left behind every
sequence of complete operations that starts the file and is shorter than the operation count. -/
theorem replay_inside_iff (contents : Buffer maxFileSize) (reads : List Transfer) (file : Bytes)
    (writes : ℕ → Transfer) (h : UDPOpHandler) (hfile : 8 ≤ file.length)
    (hreads : Delivering reads) (hcreate : create contents reads file writes = .ok h) :
    (∀ calls h', runCalls calls h = .ok h' →
      h'.wlPos ≤ h'.wlSize ∧ (h'.ops < h'.totalOps → h'.InspectsBelow)) ↔
    ∀ (ms : List Message) (tail : Bytes), (loadedBytes file).drop 8 = encodeAll ms ++ tail →
      ms.length < operationCount file → 19 ≤ tail.length := by
  obtain ⟨hholds, hpos, hops, htotal⟩ := create_spec hreads hfile hcreate
  have hheader : 8 ≤ (loadedBytes file).length := by
    have hcap : 8 ≤ maxFileSize := by decide
    rw [loadedBytes, List.length_take]
    omega
  have hstart : h.Replays (loadedBytes file) [] ((loadedBytes file).drop 8) :=
    ⟨hholds, hheader, rfl, hpos, Nat.zero_le _⟩
  rw [← htotal]
  constructor
  · intro hinside ms tail hbytes hcount
    by_contra hshort
    -- replay the operations; the next call looks beyond the end
    rw [hbytes] at hstart
    obtain ⟨h', hrun, hr', hops', htotal'⟩ := hstart.replay_all (by rw [hops]; simp; omega)
    have hleft : h'.ops < h'.totalOps := by
      rw [UInt64.lt_iff_toNat_lt, hops', htotal', hops]
      simpa using hcount
    exact hr'.not_inspectsBelow (by omega) ((hinside _ h' hrun).2 hleft)
  · intro hinside calls h' hrun
    obtain ⟨⟨ms, tail, hr'⟩, htotal'⟩ := hstart.runCalls hinside hrun
    refine ⟨by rw [hr'.size_eq_add]; omega, fun hleft => ?_⟩
    have hlt : h'.ops.toNat < h'.totalOps.toNat := UInt64.lt_iff_toNat_lt.mp hleft
    rw [htotal'] at hlt
    exact hr'.inspectsBelow (hinside ms tail hr'.bytes_eq (lt_of_le_of_lt hr'.length_le hlt))

/-- A file with one update, read in two pieces. -/
theorem replay_inside_update :
    ∃ h, create .zero [.upTo 20, .upTo 20, .upTo 20] ([0, 0, 0, 0, 0, 0, 0, 1] ++ updateMessage.encode)
        (fun _ => .upTo 0) = .ok h ∧
      ∀ calls h', runCalls calls h = .ok h' →
        h'.wlPos ≤ h'.wlSize ∧ (h'.ops < h'.totalOps → h'.InspectsBelow) := by
  have hsize : (create .zero [.upTo 20, .upTo 20, .upTo 20] ([0, 0, 0, 0, 0, 0, 0, 1] ++
      updateMessage.encode) (fun _ => .upTo 0)).map wlSize = .ok 32 := by
    rfl
  obtain ⟨h, hcreate, -⟩ := map_eq_ok.mp hsize
  refine ⟨h, hcreate, (replay_inside_iff _ _ _ _ h (by decide) ?_ hcreate).mpr ?_⟩
  · intro t ht
    exact ⟨19, by simpa using ht⟩
  · intro ms tail hbytes hcount
    -- no operation is behind the handler when the last one is read
    have hnil : ms = [] := by
      have hone : operationCount ([0, 0, 0, 0, 0, 0, 0, 1] ++ updateMessage.encode) = 1 := by decide
      exact List.length_eq_zero_iff.mp (by omega)
    subst hnil
    have hlen := congrArg List.length hbytes
    have hleft : ((loadedBytes ([0, 0, 0, 0, 0, 0, 0, 1] ++ updateMessage.encode)).drop 8).length
        = 24 := by decide
    rw [hleft, show encodeAll [] = [] from rfl, List.nil_append] at hlen
    omega

/-- A file that counts one operation and holds none: the header is read from behind the end, and the
position moves there. -/
theorem replay_leaves_file :
    ∃ h, create .zero [.upTo 8, .upTo 1] [0, 0, 0, 0, 0, 0, 0, 1] (fun _ => .upTo 0) = .ok h ∧
      ∃ h', runCalls [.receive] h = .ok h' ∧ h'.wlSize = 8 ∧ h'.wlPos = 27 := by
  have hrun : (create .zero [.upTo 8, .upTo 1] [0, 0, 0, 0, 0, 0, 0, 1]
      (fun _ => .upTo 0) >>= fun h => runCalls [.receive] h).map (fun h' => (h'.wlSize, h'.wlPos))
      = .ok (8, 27) := by
    rfl
  obtain ⟨h', hbind, hsize⟩ := map_eq_ok.mp hrun
  obtain ⟨h, hcreate, hcalls⟩ := bind_eq_ok.mp hbind
  exact ⟨h, hcreate, h', hcalls, congrArg Prod.fst hsize, congrArg Prod.snd hsize⟩

end UDPOpHandler

end BenchLx.Ycsb
