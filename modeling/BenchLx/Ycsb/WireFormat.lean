import BenchLx.Ycsb.Handler

/-!
# The wire format of packages

`Message.encode` is the format that `from_bytes` parses: op, table, count of pairs, key and scan
length, then for each pair the two lengths, the name and the value. The parser loop is described by
one step lemma (`fromBytesLoop_succ_accepts_iff`) and, by induction on the pairs that are left, one
lemma for a whole run (`fromBytesLoop_accepts_iff`). `fromBytes_accepts_iff` is the interface that
the other modules use: they never unfold the parser.
-/

namespace BenchLx.Ycsb

/-! ## The format -/

/-- A pair whose name and value fit the one-byte length fields. -/
def ShortPair (kv : Bytes × Bytes) : Prop :=
  kv.1.length ≤ 255 ∧ kv.2.length ≤ 255

/-- A package that the wire can carry: the count is the number of pairs and all pairs are short. -/
structure Message extends Package where
  numKvs_eq : numKvs.toNat = kvPairs.length
  short : ∀ kv ∈ kvPairs, ShortPair kv

/-- The lengths, the name and the value of one pair. -/
def encodePair (kv : Bytes × Bytes) : Bytes :=
  UInt8.ofNat kv.1.length :: UInt8.ofNat kv.2.length :: (kv.1 ++ kv.2)

/-- The pairs of a message one after the other. -/
def encodePairs (kvs : List (Bytes × Bytes)) : Bytes :=
  kvs.flatMap encodePair

/-- The fixed part of a message. -/
def Package.encodeHeader (pkg : Package) : Bytes :=
  [pkg.op, pkg.table, UInt8.ofNat pkg.kvPairs.length] ++
    (toBytesBE 8 pkg.key.toNat ++ toBytesBE 8 pkg.scanLength.toNat)

/-- The bytes of a package on the wire. -/
def Package.encode (pkg : Package) : Bytes :=
  pkg.encodeHeader ++ encodePairs pkg.kvPairs

@[simp] theorem length_encodePair (kv : Bytes × Bytes) :
    (encodePair kv).length = 2 + kv.1.length + kv.2.length := by
  simp only [encodePair, List.length_cons, List.length_append]
  omega

@[simp] theorem encodePairs_nil : encodePairs [] = [] := rfl

@[simp] theorem encodePairs_cons (kv : Bytes × Bytes) (kvs : List (Bytes × Bytes)) :
    encodePairs (kv :: kvs) = encodePair kv ++ encodePairs kvs := rfl

@[simp] theorem Package.length_encodeHeader (pkg : Package) : pkg.encodeHeader.length = 19 := by
  simp [Package.encodeHeader]

theorem Package.length_encode (pkg : Package) :
    pkg.encode.length = 19 + (encodePairs pkg.kvPairs).length := by
  simp [Package.encode]

theorem Message.numKvs_eq_ofNat (m : Message) : UInt8.ofNat m.kvPairs.length = m.numKvs := by
  rw [← m.numKvs_eq]
  exact UInt8.ofNat_toNat

/-! ## `read_u64` -/

/-- The first `k` of eight bytes, in the top places of a number. -/
private def topPlaces (k : ℕ) (bs : Bytes) : ℕ :=
  ofBytesBE bs * 2 ^ (64 - 8 * k)

private theorem topPlaces_lt {k : ℕ} (hk : k ≤ 8) {bs : Bytes} (hlen : bs.length = k) :
    topPlaces k bs < 2 ^ 64 := by
  have hbound := ofBytesBE_lt bs
  rw [hlen, show (256 : ℕ) = 2 ^ 8 by rfl, ← pow_mul] at hbound
  calc topPlaces k bs < 2 ^ (8 * k) * 2 ^ (64 - 8 * k) :=
        Nat.mul_lt_mul_of_pos_right hbound (by positivity)
    _ = 2 ^ 64 := by rw [← pow_add]; congr 1; omega

/-- Or-ing the next byte in adds it in its place. -/
private theorem topPlaces_concat {k : ℕ} (hk : k < 8) {acc : UInt64} {b : UInt8} {bs : Bytes}
    (hacc : acc.toNat = topPlaces k bs) :
    (acc ||| (b.toUInt64 <<< UInt64.ofNat (56 - k * 8))).toNat
      = topPlaces (k + 1) (bs ++ [b]) := by
  have hb : b.toNat < 256 := b.toNat_lt
  have hsplit : 2 ^ (64 - 8 * k) = 256 * 2 ^ (56 - k * 8) := by
    rw [show (256 : ℕ) = 2 ^ 8 by rfl, ← pow_add]
    congr 1
    omega
  have hfit : b.toNat <<< (56 - k * 8) < 2 ^ 64 := by
    rw [Nat.shiftLeft_eq]
    calc b.toNat * 2 ^ (56 - k * 8) < 256 * 2 ^ (56 - k * 8) :=
          Nat.mul_lt_mul_of_pos_right hb (by positivity)
      _ = 2 ^ (64 - 8 * k) := hsplit.symm
      _ ≤ 2 ^ 64 := Nat.pow_le_pow_right (by omega) (by omega)
  have hshift : (UInt64.ofNat (56 - k * 8)).toNat % 64 = 56 - k * 8 := by
    rw [UInt64.toNat_ofNat']
    omega
  rw [UInt64.toNat_or, UInt64.toNat_shiftLeft, hshift, UInt8.toNat_toUInt64,
    Nat.mod_eq_of_lt hfit, hacc, topPlaces, hsplit, ← Nat.mul_assoc, or_shiftLeft_byte hb,
    topPlaces, ofBytesBE_concat, show 64 - 8 * (k + 1) = 56 - k * 8 by omega]

/-- After `k` rounds the result holds the first `k` bytes in its top places. -/
private theorem readU64_fold_iff {p : Ptr} {k : ℕ} (hk : k ≤ 8) {r : UInt64} :
    (List.range k).foldlM (fun res i => do
        let b ← p i
        return res ||| (b.toUInt64 <<< UInt64.ofNat (56 - i * 8))) 0 = Except.ok r ↔
      ∃ bs, bs.length = k ∧ p.Holds 0 bs ∧ r.toNat = topPlaces k bs := by
  induction k generalizing r with
  | zero =>
    simp only [List.range_zero, List.foldlM_nil, pure_eq_ok]
    constructor
    · rintro rfl
      exact ⟨[], rfl, trivial, by simp [topPlaces]⟩
    · rintro ⟨bs, hlen, -, hr⟩
      rw [List.length_eq_zero_iff.mp hlen] at hr
      exact UInt64.toNat_inj.mp (by simpa [topPlaces] using hr.symm)
  | succ k ih =>
    simp only [List.range_succ, List.foldlM_append, List.foldlM_cons, List.foldlM_nil,
      bind_eq_ok, ih (by omega), pure_eq_ok]
    constructor
    · rintro ⟨acc, ⟨bs, hlen, hbs, hacc⟩, acc', ⟨b, hb, rfl⟩, rfl⟩
      refine ⟨bs ++ [b], by simp [hlen], Ptr.holds_append.mpr ⟨hbs, ?_⟩,
        topPlaces_concat (by omega) hacc⟩
      simpa [hlen] using hb
    · rintro ⟨bs, hlen, hbs, hr⟩
      obtain ⟨bs, b, rfl⟩ : ∃ bs' b, bs = bs' ++ [b] :=
        ⟨bs.dropLast, bs.getLast (by rintro rfl; simp at hlen),
          (List.dropLast_concat_getLast _).symm⟩
      obtain ⟨hbs, hb⟩ := Ptr.holds_append.mp hbs
      have hlen' : bs.length = k := by simpa using hlen
      have hacc : (UInt64.ofNat (topPlaces k bs)).toNat = topPlaces k bs := by
        rw [UInt64.toNat_ofNat', Nat.mod_eq_of_lt (topPlaces_lt (by omega) hlen')]
      refine ⟨_, ⟨bs, hlen', hbs, hacc⟩, _, ⟨b, by simpa [hlen'] using hb, rfl⟩, ?_⟩
      exact UInt64.toNat_inj.mp (by rw [topPlaces_concat (by omega) hacc, hr])

/-- `read_u64` returns the number that stands there in eight big-endian bytes. -/
theorem readU64_eq_ok_iff {p : Ptr} {x : UInt64} :
    readU64 p = .ok x ↔ p.Holds 0 (toBytesBE 8 x.toNat) := by
  rw [readU64, readU64_fold_iff (le_refl 8)]
  constructor
  · rintro ⟨bs, hlen, hbs, hx⟩
    have hx' : x.toNat = ofBytesBE bs := by simpa [topPlaces] using hx
    rw [hx', ← hlen, toBytesBE_ofBytesBE]
    exact hbs
  · intro h
    refine ⟨_, length_toBytesBE _ _, h, ?_⟩
    have hlt : x.toNat < 256 ^ 8 := x.toNat_lt
    rw [topPlaces, ofBytesBE_toBytesBE, Nat.mod_eq_of_lt hlt]
    simp

/-! ## The parser loop -/

section Parser

variable {buf : Ptr} {size : ℕ}

/-- One round of the loop accepts exactly one encoded pair that ends inside the message. -/
theorem fromBytesLoop_succ_accepts_iff {left pos : ℕ} {pkg pkg' : Package} {r : ℕ} :
    fromBytesLoop buf size (left + 1) pos pkg = .ok (r, pkg') ∧ r ≠ 0 ↔
      ∃ kv, ShortPair kv ∧ buf.Holds pos (encodePair kv) ∧
        pos + (encodePair kv).length ≤ size ∧
        fromBytesLoop buf size left (pos + (encodePair kv).length)
            { pkg with kvPairs := pkg.kvPairs ++ [kv] } = .ok (r, pkg') ∧ r ≠ 0 := by
  rw [fromBytesLoop]
  constructor
  · rintro ⟨h, hr⟩
    split at h
    · obtain ⟨rfl, -⟩ := Prod.mk.inj (Except.ok.inj h)
      exact absurd rfl hr
    · obtain ⟨keyLen, hkeyLen, h⟩ := bind_eq_ok.mp h
      obtain ⟨valLen, hvalLen, h⟩ := bind_eq_ok.mp h
      split at h
      · obtain ⟨rfl, -⟩ := Prod.mk.inj (Except.ok.inj h)
        exact absurd rfl hr
      · obtain ⟨key, hkey, h⟩ := bind_eq_ok.mp h
        obtain ⟨val, hval, h⟩ := bind_eq_ok.mp h
        obtain ⟨hklen, hkey⟩ := Ptr.read_eq_ok_iff.mp hkey
        obtain ⟨hvlen, hval⟩ := Ptr.read_eq_ok_iff.mp hval
        have hk : keyLen.toNat < 256 := keyLen.toNat_lt
        have hv : valLen.toNat < 256 := valLen.toNat_lt
        have hlen : pos + (encodePair (key, val)).length
            = pos + 2 + keyLen.toNat + valLen.toNat := by
          rw [length_encodePair, hklen, hvlen]
          omega
        refine ⟨(key, val), ⟨by simp only; omega, by simp only; omega⟩, ?_, by omega, ?_, hr⟩
        · simp only [encodePair, Ptr.holds_cons, hklen, hvlen, UInt8.ofNat_toNat]
          refine ⟨hkeyLen, hvalLen, Ptr.holds_append.mpr ⟨hkey, ?_⟩⟩
          rw [hklen]
          exact hval
        · rw [hlen]
          exact h
  · rintro ⟨⟨key, val⟩, ⟨hk, hv⟩, hpair, hle, h, hr⟩
    simp only [encodePair, Ptr.holds_cons, Ptr.holds_append] at hpair
    obtain ⟨hkeyLen, hvalLen, hkey, hval⟩ := hpair
    simp only [length_encodePair] at hk hv hle h
    have hktoNat : (UInt8.ofNat key.length).toNat = key.length :=
      UInt8.toNat_ofNat_of_lt' (Nat.lt_succ_of_le hk)
    have hvtoNat : (UInt8.ofNat val.length).toNat = val.length :=
      UInt8.toNat_ofNat_of_lt' (Nat.lt_succ_of_le hv)
    refine ⟨?_, hr⟩
    rw [if_neg (by omega), hkeyLen, ok_bind, hvalLen, ok_bind, hktoNat, hvtoNat,
      if_neg (by omega), Ptr.read_eq_ok_iff.mpr ⟨rfl, hkey⟩, ok_bind,
      Ptr.read_eq_ok_iff.mpr ⟨rfl, hval⟩, ok_bind]
    rw [← h]
    congr 1
    omega

/-- The loop accepts exactly the encoding of as many pairs as are left. -/
theorem fromBytesLoop_accepts_iff {left pos : ℕ} (hpos : 0 < pos) {pkg pkg' : Package} {r : ℕ} :
    fromBytesLoop buf size left pos pkg = .ok (r, pkg') ∧ r ≠ 0 ↔
      ∃ kvs : List (Bytes × Bytes), kvs.length = left ∧ (∀ kv ∈ kvs, ShortPair kv) ∧
        buf.Holds pos (encodePairs kvs) ∧
        (kvs ≠ [] → pos + (encodePairs kvs).length ≤ size) ∧
        r = pos + (encodePairs kvs).length ∧
        pkg' = { pkg with kvPairs := pkg.kvPairs ++ kvs } := by
  induction left generalizing pos pkg with
  | zero =>
    simp only [fromBytesLoop, Except.ok.injEq, Prod.mk.injEq]
    constructor
    · rintro ⟨⟨rfl, rfl⟩, -⟩
      exact ⟨[], rfl, by simp, trivial, by simp, rfl, by simp⟩
    · rintro ⟨kvs, hlen, -, -, -, rfl, rfl⟩
      obtain rfl := List.length_eq_zero_iff.mp hlen
      exact ⟨⟨rfl, by simp⟩, by simp; omega⟩
  | succ left ih =>
    rw [fromBytesLoop_succ_accepts_iff]
    constructor
    · rintro ⟨kv, hkv, hpair, hle, h⟩
      obtain ⟨kvs, hlen, hshort, hpairs, hend, rfl, rfl⟩ := (ih (by omega)).mp h
      refine ⟨kv :: kvs, by simp [hlen], ?_, Ptr.holds_append.mpr ⟨hpair, hpairs⟩, fun _ => ?_,
        by simp only [encodePairs_cons, List.length_append]; omega, by simp⟩
      · intro e he
        rcases List.mem_cons.mp he with rfl | he
        · exact hkv
        · exact hshort e he
      · rw [encodePairs_cons, List.length_append]
        by_cases hnil : kvs = []
        · subst hnil
          simpa using hle
        · have := hend hnil
          omega
    · rintro ⟨kvs, hlen, hshort, hpairs, hend, rfl, rfl⟩
      cases kvs with
      | nil => simp at hlen
      | cons kv kvs =>
        rw [encodePairs_cons, List.length_append] at hend
        rw [encodePairs_cons, Ptr.holds_append] at hpairs
        have hle := hend (by simp)
        refine ⟨kv, hshort kv (by simp), hpairs.1, by omega, (ih (by omega)).mpr ?_⟩
        exact ⟨kvs, by simpa using hlen, fun e he => hshort e (by simp [he]), hpairs.2,
          fun _ => by omega, by simp only [encodePairs_cons, List.length_append]; omega, by simp⟩

/-- The loop returns when the message can be read. -/
theorem fromBytesLoop_returns (hbuf : buf.Covers size) (left pos : ℕ) (pkg : Package) :
    ∃ r pkg', fromBytesLoop buf size left pos pkg = .ok (r, pkg') := by
  induction left generalizing pos pkg with
  | zero => exact ⟨pos, pkg, rfl⟩
  | succ left ih =>
    rw [fromBytesLoop]
    split
    · exact ⟨0, pkg, rfl⟩
    · obtain ⟨keyLen, hkeyLen⟩ := hbuf pos (by omega)
      obtain ⟨valLen, hvalLen⟩ := hbuf (pos + 1) (by omega)
      rw [hkeyLen, ok_bind, hvalLen, ok_bind]
      split
      · exact ⟨0, pkg, rfl⟩
      · obtain ⟨key, hkey⟩ := hbuf.read (pos + 2) keyLen.toNat (by omega)
        obtain ⟨val, hval⟩ := hbuf.read (pos + 2 + keyLen.toNat) valLen.toNat (by omega)
        rw [Ptr.read_eq_ok_iff.mpr hkey, ok_bind, Ptr.read_eq_ok_iff.mpr hval, ok_bind]
        exact ih _ _

end Parser

/-! ## `from_bytes` -/

/-- What `from_bytes` does in the order of the source: it reads the 19 bytes of the header, whatever
the size of the message, and then runs the loop. -/
theorem fromBytes_eq_ok_iff {buf : Ptr} {size : ℕ} {pkg pkg' : Package} {r : ℕ} :
    fromBytes buf size pkg = .ok (r, pkg') ↔
      ∃ (op table numKvs : UInt8) (key scanLength : UInt64),
        buf.Holds 0 ([op, table, numKvs] ++
          (toBytesBE 8 key.toNat ++ toBytesBE 8 scanLength.toNat)) ∧
        fromBytesLoop buf size numKvs.toNat 19 { pkg with op, table, numKvs, key, scanLength }
          = .ok (r, pkg') := by
  simp only [fromBytes, bind_eq_ok, readU64_eq_ok_iff, Ptr.holds_add, Ptr.holds_append,
    Ptr.holds_cons, Ptr.holds_nil, length_toBytesBE, List.length_cons, List.length_nil]
  constructor
  · rintro ⟨op, hop, table, htable, numKvs, hnum, key, hkey, scanLength, hscan, h⟩
    exact ⟨op, table, numKvs, key, scanLength, ⟨⟨hop, htable, hnum, trivial⟩, hkey, hscan⟩, h⟩
  · rintro ⟨op, table, numKvs, key, scanLength, ⟨⟨hop, htable, hnum, -⟩, hkey, hscan⟩, h⟩
    exact ⟨op, hop, table, htable, numKvs, hnum, key, hkey, scanLength, hscan, h⟩

/-- `from_bytes` accepts exactly the messages that stand at the pointer and end inside the size it
is given; a message without pairs is accepted whatever that size is. -/
theorem fromBytes_accepts_iff {buf : Ptr} {size : ℕ} {pkg pkg' : Package}
    (hfresh : pkg.kvPairs = []) {r : ℕ} :
    fromBytes buf size pkg = .ok (r, pkg') ∧ r ≠ 0 ↔
      ∃ m : Message, buf.Holds 0 m.encode ∧ (m.kvPairs ≠ [] → m.encode.length ≤ size) ∧
        r = m.encode.length ∧ pkg' = m.toPackage := by
  constructor
  · rintro ⟨h, hr⟩
    obtain ⟨op, table, numKvs, key, scanLength, hheader, hloop⟩ := fromBytes_eq_ok_iff.mp h
    obtain ⟨kvs, hlen, hshort, hpairs, hend, rfl, rfl⟩ :=
      (fromBytesLoop_accepts_iff (by omega)).mp ⟨hloop, hr⟩
    let m : Message :=
      { op, table, numKvs, key, scanLength, kvPairs := kvs, numKvs_eq := hlen.symm,
        short := hshort }
    refine ⟨m, ?_, fun hne => ?_, ?_, by simp [m, hfresh]⟩
    · refine Ptr.holds_append.mpr ⟨?_, by simpa using hpairs⟩
      rw [Package.encodeHeader, m.numKvs_eq_ofNat]
      exact hheader
    · rw [Package.length_encode]
      exact hend hne
    · rw [Package.length_encode]
  · rintro ⟨m, hm, hend, rfl, rfl⟩
    obtain ⟨hheader, hpairs⟩ := Ptr.holds_append.mp hm
    rw [Package.length_encodeHeader, Nat.zero_add] at hpairs
    rw [Package.encodeHeader, m.numKvs_eq_ofNat] at hheader
    rw [Package.length_encode] at hend ⊢
    refine ⟨fromBytes_eq_ok_iff.mpr ⟨_, _, _, _, _, hheader, ?_⟩, by omega⟩
    refine ((fromBytesLoop_accepts_iff (by omega)).mpr ?_).1
    exact ⟨m.kvPairs, m.numKvs_eq.symm, m.short, hpairs, hend, rfl, by simp [hfresh]⟩

/-- `from_bytes` returns when the header and the message can be read. -/
theorem fromBytes_returns {buf : Ptr} {size : ℕ} (hheader : buf.Covers 19)
    (hbuf : buf.Covers size) (pkg : Package) :
    ∃ r pkg', fromBytes buf size pkg = .ok (r, pkg') := by
  obtain ⟨op, hop⟩ := hheader 0 (by omega)
  obtain ⟨table, htable⟩ := hheader 1 (by omega)
  obtain ⟨numKvs, hnum⟩ := hheader 2 (by omega)
  have hword : ∀ base, base + 8 ≤ 19 → ∃ x, readU64 (buf.add base) = .ok x := by
    intro base hbase
    obtain ⟨bs, hlen, hbs⟩ := hheader.read base 8 hbase
    refine ⟨UInt64.ofNat (ofBytesBE bs), readU64_eq_ok_iff.mpr ?_⟩
    have hlt := ofBytesBE_lt bs
    rw [hlen] at hlt
    rw [UInt64.toNat_ofNat', Nat.mod_eq_of_lt (by simpa using hlt), ← hlen, toBytesBE_ofBytesBE]
    simpa using hbs
  obtain ⟨key, hkey⟩ := hword 3 (by omega)
  obtain ⟨scanLength, hscan⟩ := hword 11 (by omega)
  rw [fromBytes, hop, ok_bind, htable, ok_bind, hnum, ok_bind, hkey, ok_bind, hscan, ok_bind]
  exact fromBytesLoop_returns hbuf _ _ _

/-- `from_bytes` inspects all of the header: it faults when a byte of it is missing. -/
theorem covers_of_fromBytes {buf : Ptr} {size : ℕ} {pkg pkg' : Package} {r : ℕ}
    (h : fromBytes buf size pkg = .ok (r, pkg')) : buf.Covers 19 := by
  obtain ⟨op, table, numKvs, key, scanLength, hheader, -⟩ := fromBytes_eq_ok_iff.mp h
  exact Ptr.Covers.of_holds hheader

/-- A header that announces no pairs is accepted, whatever the size of the message. -/
theorem fromBytes_of_no_pairs {buf : Ptr} (size : ℕ) (hheader : buf.Covers 19)
    (hnum : buf 2 = .ok 0) (pkg : Package) : ∃ pkg', fromBytes buf size pkg = .ok (19, pkg') := by
  obtain ⟨r, pkg', h⟩ := fromBytes_returns hheader (fun i hi => absurd hi (Nat.not_lt_zero i)) pkg
  obtain ⟨op, table, numKvs, key, scanLength, hheld, -⟩ := fromBytes_eq_ok_iff.mp h
  have hzero : numKvs = 0 := by
    simp only [List.cons_append, Ptr.holds_cons, hnum, Except.ok.injEq] at hheld
    exact hheld.2.2.1.symm
  exact ⟨_, fromBytes_eq_ok_iff.mpr ⟨op, table, numKvs, key, scanLength, hheld, by rw [hzero]; rfl⟩⟩

/-! ## Decoding a string of bytes -/

theorem Message.toPackage_injective : Function.Injective Message.toPackage := by
  rintro ⟨pkg, _, _⟩ ⟨pkg', _, _⟩ h
  obtain rfl : pkg = pkg' := h
  rfl

/-- On a string of bytes `from_bytes` accepts exactly when the string starts with an encoded
message. -/
theorem fromBytes_ofBytes_accepts_iff {s : Bytes} {pkg pkg' : Package}
    (hfresh : pkg.kvPairs = []) {r : ℕ} :
    fromBytes (Ptr.ofBytes s) s.length pkg = .ok (r, pkg') ∧ r ≠ 0 ↔
      ∃ m : Message, m.encode <+: s ∧ r = m.encode.length ∧ pkg' = m.toPackage := by
  rw [fromBytes_accepts_iff hfresh]
  simp only [Ptr.holds_ofBytes_iff]
  constructor
  · rintro ⟨m, hm, -, hr, hpkg⟩
    exact ⟨m, hm, hr, hpkg⟩
  · rintro ⟨m, hm, hr, hpkg⟩
    exact ⟨m, hm, fun _ => hm.length_le, hr, hpkg⟩

/-- What `from_bytes` makes of a string of bytes: the package it decodes, or nothing when it rejects
the string. -/
def decode (s : Bytes) : Option Package :=
  match fromBytes (Ptr.ofBytes s) s.length Package.fresh with
  | .ok (r, pkg) => if r = 0 then none else some pkg
  | .error _ => none

theorem decode_eq_some_iff {s : Bytes} {pkg : Package} :
    decode s = some pkg ↔ ∃ m : Message, m.encode <+: s ∧ pkg = m.toPackage := by
  have haccept := fun r => @fromBytes_ofBytes_accepts_iff s Package.fresh pkg rfl r
  rw [decode]
  constructor
  · intro h
    split at h
    case h_1 r pkg' hparse =>
      by_cases hr : r = 0
      · rw [if_pos hr] at h
        cases h
      · rw [if_neg hr] at h
        cases h
        obtain ⟨m, hm, -, hpkg⟩ := (haccept r).mp ⟨hparse, hr⟩
        exact ⟨m, hm, hpkg⟩
    case h_2 => cases h
  · intro ⟨m, hm, hpkg⟩
    obtain ⟨hparse, hr⟩ := (haccept _).mpr ⟨m, hm, rfl, hpkg⟩
    rw [hparse]
    exact if_neg hr

/-- A buffer that starts with a string of at least 19 bytes is decoded as that string is. -/
theorem fromBytes_of_holds {buf : Ptr} {s : Bytes} (hheld : buf.Holds 0 s) (hs : 19 ≤ s.length)
    {pkg : Package} {r : ℕ} (h : fromBytes buf s.length Package.fresh = .ok (r, pkg)) :
    decode s = if r = 0 then none else some pkg := by
  -- a message that the buffer holds and that ends inside the string is one the string starts with
  have hstarts : ∀ m : Message, buf.Holds 0 m.encode ∧
      (m.kvPairs ≠ [] → m.encode.length ≤ s.length) ↔ m.encode <+: s := by
    intro m
    constructor
    · intro ⟨hm, hend⟩
      have hle : m.encode.length ≤ s.length := by
        by_cases hpairs : m.kvPairs = []
        · rw [Package.length_encode, hpairs]
          simpa using hs
        · exact hend hpairs
      exact hm.isPrefix hheld hle
    · intro hm
      exact ⟨hheld.of_isPrefix hm, fun _ => hm.length_le⟩
  have haccept := fun r pkg' => @fromBytes_accepts_iff buf s.length Package.fresh pkg' rfl r
  by_cases hr : r = 0
  · rw [if_pos hr, Option.eq_none_iff_forall_not_mem]
    intro pkg' hpkg
    obtain ⟨m, hm, hpkg⟩ := decode_eq_some_iff.mp hpkg
    obtain ⟨hm, hend⟩ := (hstarts m).mpr hm
    obtain ⟨hparse, hne⟩ := (haccept _ pkg').mpr ⟨m, hm, hend, rfl, hpkg⟩
    rw [h] at hparse
    cases hparse
    exact hne hr
  · rw [if_neg hr]
    obtain ⟨m, hm, hend, -, hpkg⟩ := (haccept r pkg).mp ⟨h, hr⟩
    exact decode_eq_some_iff.mpr ⟨m, (hstarts m).mp ⟨hm, hend⟩, hpkg⟩

/-- **The parser decodes the wire format.** On every string of at least 19 bytes `from_bytes`
returns; it returns a non-zero number exactly when the string starts with an encoded message, which
is then unique, is the decoded package and has the returned length. Decoding inverts encoding and
encoding gives back the bytes consumed. -/
theorem fromBytes_decodes_wire_format :
    (∀ (s : Bytes) (pkg : Package), 19 ≤ s.length → pkg.kvPairs = [] →
      ∃ r pkg', fromBytes (Ptr.ofBytes s) s.length pkg = .ok (r, pkg') ∧
        (r ≠ 0 ↔ ∃ m : Message, m.encode <+: s) ∧
        (r ≠ 0 → (∃! m : Message, m.encode <+: s) ∧ pkg'.encode = s.take r) ∧
        ∀ m : Message, m.encode <+: s →
          pkg' = m.toPackage ∧ pkg'.numKvs.toNat = pkg'.kvPairs.length ∧ r = m.encode.length) ∧
    ∀ (m : Message) (rest : Bytes) (pkg : Package), pkg.kvPairs = [] →
      fromBytes (Ptr.ofBytes (m.encode ++ rest)) (m.encode ++ rest).length pkg
        = .ok (m.encode.length, m.toPackage) := by
  refine ⟨fun s pkg hs hfresh => ?_, fun m rest pkg hfresh => ?_⟩
  · have hcovers := Ptr.covers_ofBytes s
    obtain ⟨r, pkg', h⟩ := fromBytes_returns (fun i hi => hcovers i (by omega)) hcovers pkg
    -- whichever message the string starts with, it is what has been decoded
    have hdecode : ∀ m : Message, m.encode <+: s → pkg' = m.toPackage ∧ r = m.encode.length := by
      intro m hm
      have h' := ((fromBytes_ofBytes_accepts_iff hfresh).mpr ⟨m, hm, rfl, rfl⟩).1
      rw [h] at h'
      obtain ⟨hr, hpkg⟩ := Prod.mk.inj (Except.ok.inj h')
      exact ⟨hpkg, hr⟩
    have haccept : r ≠ 0 ↔ ∃ m : Message, m.encode <+: s := by
      constructor
      · intro hr
        obtain ⟨m, hm, -, -⟩ := (fromBytes_ofBytes_accepts_iff hfresh).mp ⟨h, hr⟩
        exact ⟨m, hm⟩
      · rintro ⟨m, hm⟩
        rw [(hdecode m hm).2, Package.length_encode]
        omega
    refine ⟨r, pkg', h, haccept, fun hr => ?_, fun m hm => ?_⟩
    · obtain ⟨m, hm⟩ := haccept.mp hr
      obtain ⟨hpkg, hlen⟩ := hdecode m hm
      refine ⟨⟨m, hm, fun m' hm' => Message.toPackage_injective ?_⟩, ?_⟩
      · rw [← (hdecode m' hm').1, hpkg]
      · rw [hpkg, hlen]
        exact List.prefix_iff_eq_take.mp hm
    · obtain ⟨hpkg, hlen⟩ := hdecode m hm
      exact ⟨hpkg, by rw [hpkg]; exact m.numKvs_eq, hlen⟩
  · exact ((fromBytes_ofBytes_accepts_iff hfresh).mpr ⟨m, List.prefix_append _ _, rfl, rfl⟩).1

/-- The message that updates field `0` of key 7 to the value `ab`. -/
def updateMessage : Message :=
  ⟨⟨5, 0, 1, 7, 0, [([48], [97, 98])]⟩, by decide, by simp [ShortPair]⟩

theorem shortPair_of_mem_nil (kv : Bytes × Bytes) (h : kv ∈ []) : ShortPair kv := by
  cases h

/-- A READ of all fields of record 9. -/
def readMessage : Message :=
  ⟨⟨3, 0, 0, 9, 0, []⟩, by decide, shortPair_of_mem_nil⟩

/-- The parser on `updateMessage` followed by one more byte. -/
theorem fromBytes_decodes_wire_format_update :
    (∃ r pkg', fromBytes (Ptr.ofBytes (updateMessage.encode ++ [255]))
        (updateMessage.encode ++ [255]).length Package.fresh = .ok (r, pkg') ∧
      (r ≠ 0 ↔ ∃ m : Message, m.encode <+: updateMessage.encode ++ [255])) ∧
    fromBytes (Ptr.ofBytes (updateMessage.encode ++ [255]))
        (updateMessage.encode ++ [255]).length Package.fresh
      = .ok (updateMessage.encode.length, updateMessage.toPackage) ∧
    updateMessage.encode.length = 24 := by
  refine ⟨?_, fromBytes_decodes_wire_format.2 updateMessage [255] Package.fresh rfl, by decide⟩
  obtain ⟨r, pkg', h, haccept, -⟩ := fromBytes_decodes_wire_format.1
    (updateMessage.encode ++ [255]) Package.fresh (by decide) rfl
  exact ⟨r, pkg', h, haccept⟩

end BenchLx.Ycsb
