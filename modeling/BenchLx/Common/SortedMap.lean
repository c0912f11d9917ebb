import Mathlib.Data.List.Lex
import Mathlib.Data.List.TakeWhile
import Mathlib.Tactic

/-!
# Finite maps in key order

A finite map kept as a list of entries whose keys strictly increase, as an ordered key-value store
presents itself to an iterator. The order is a field of the structure, so every map has one entry a
key and lists its entries in key order.
-/

namespace BenchLx

/-- A finite map from `K` to `V`, listed by strictly increasing key. -/
structure SortedMap (K V : Type*) [LinearOrder K] where
  entries : List (K × V)
  sorted : entries.Pairwise fun a b => a.1 < b.1

namespace SortedMap

variable {K V : Type*} [LinearOrder K]

/-- The map without entries. -/
def empty : SortedMap K V := ⟨[], List.Pairwise.nil⟩

/-- Place an entry in an ordered list, replacing the entry that has its key. -/
def insertEntry (k : K) (v : V) : List (K × V) → List (K × V)
  | [] => [(k, v)]
  | e :: es =>
    if k < e.1 then (k, v) :: e :: es
    else if k = e.1 then (k, v) :: es
    else e :: insertEntry k v es

theorem mem_insertEntry_fst {k : K} {v : V} {es : List (K × V)} {e : K × V}
    (he : e ∈ insertEntry k v es) : e.1 = k ∨ e ∈ es := by
  induction es with
  | nil => exact Or.inl (by simp_all [insertEntry])
  | cons a es ih =>
    rw [insertEntry] at he
    split_ifs at he with hlt heq
    · rcases List.mem_cons.mp he with rfl | he
      · exact Or.inl rfl
      · exact Or.inr he
    · rcases List.mem_cons.mp he with rfl | he
      · exact Or.inl rfl
      · exact Or.inr (List.mem_cons_of_mem a he)
    · rcases List.mem_cons.mp he with rfl | he
      · exact Or.inr List.mem_cons_self
      · exact (ih he).imp_right (List.mem_cons_of_mem a)

theorem insertEntry_sorted (k : K) (v : V) {es : List (K × V)}
    (hes : es.Pairwise fun a b => a.1 < b.1) :
    (insertEntry k v es).Pairwise fun a b => a.1 < b.1 := by
  induction es with
  | nil => exact List.pairwise_singleton _ _
  | cons a es ih =>
    obtain ⟨ha, htail⟩ := List.pairwise_cons.mp hes
    rw [insertEntry]
    split_ifs with hlt heq
    · refine List.pairwise_cons.mpr ⟨fun b hb => ?_, hes⟩
      rcases List.mem_cons.mp hb with rfl | hb
      · exact hlt
      · exact hlt.trans (ha b hb)
    · exact List.pairwise_cons.mpr ⟨fun b hb => heq ▸ ha b hb, htail⟩
    · refine List.pairwise_cons.mpr ⟨fun b hb => ?_, ih htail⟩
      rcases mem_insertEntry_fst hb with hbk | hb
      · rw [hbk]
        exact lt_of_le_of_ne (not_lt.mp hlt) (Ne.symm heq)
      · exact ha b hb

/-- Store `v` under `k`, replacing what was stored there. -/
def put (m : SortedMap K V) (k : K) (v : V) : SortedMap K V :=
  ⟨insertEntry k v m.entries, insertEntry_sorted k v m.sorted⟩

/-- The value stored under `k`. -/
def get (m : SortedMap K V) (k : K) : Option V :=
  (m.entries.find? fun e => e.1 = k).map Prod.snd

/-- The entries from the first key at or past `k` on. -/
def seek (m : SortedMap K V) (k : K) : List (K × V) :=
  m.entries.dropWhile fun e => e.1 < k

/-- The entries that `seek` passes over. -/
def before (m : SortedMap K V) (k : K) : List (K × V) :=
  m.entries.takeWhile fun e => e.1 < k

theorem before_append_seek (m : SortedMap K V) (k : K) : m.before k ++ m.seek k = m.entries :=
  List.takeWhile_append_dropWhile

theorem mem_entries_of_mem_before {m : SortedMap K V} {k : K} {e : K × V} (he : e ∈ m.before k) :
    e ∈ m.entries :=
  (List.takeWhile_prefix _).subset he

theorem lt_of_mem_before {m : SortedMap K V} {k : K} {e : K × V} (he : e ∈ m.before k) :
    e.1 < k := by
  simpa using List.mem_takeWhile_imp he

/-- The entries that are sought are those at or past the key. -/
theorem mem_seek_iff {m : SortedMap K V} {k : K} {e : K × V} :
    e ∈ m.seek k ↔ e ∈ m.entries ∧ k ≤ e.1 := by
  have hsorted := m.sorted
  rw [← before_append_seek m k, List.pairwise_append] at hsorted
  rw [← before_append_seek m k, List.mem_append]
  constructor
  · intro he
    refine ⟨.inr he, ?_⟩
    -- the first one is at or past the key, and the others follow it
    obtain ⟨first, rest, hseek⟩ := List.exists_cons_of_ne_nil (List.ne_nil_of_mem he)
    have hfirst : k ≤ first.1 := by
      have hhead := List.head?_dropWhile_not (fun e => decide (e.1 < k)) m.entries
      rw [show m.entries.dropWhile (fun e => decide (e.1 < k)) = first :: rest from hseek] at hhead
      simpa using hhead
    rw [hseek, List.pairwise_cons] at hsorted
    rw [hseek] at he
    rcases List.mem_cons.mp he with rfl | he
    · exact hfirst
    · exact hfirst.trans (hsorted.2.1.1 e he).le
  · rintro ⟨hbefore | he, hle⟩
    · exact absurd (lt_of_mem_before hbefore) (not_lt.mpr hle)
    · exact he

@[simp] theorem entries_empty : (empty : SortedMap K V).entries = [] := rfl

@[simp] theorem get_empty (k : K) : (empty : SortedMap K V).get k = none := rfl

theorem find?_insertEntry (k k' : K) (v : V) (es : List (K × V)) :
    ((insertEntry k v es).find? fun e => e.1 = k') =
      if k' = k then some (k, v) else es.find? fun e => e.1 = k' := by
  induction es with
  | nil =>
    by_cases hk : k' = k
    · simp [insertEntry, hk]
    · simp [insertEntry, hk, Ne.symm hk]
  | cons a es ih =>
    rw [insertEntry]
    by_cases hk : k' = k
    · subst hk
      rw [if_pos rfl]
      split_ifs with hlt heq
      · simp
      · simp
      · rw [List.find?_cons_of_neg (by simpa using Ne.symm heq), ih, if_pos rfl]
    · rw [if_neg hk]
      split_ifs with hlt heq
      · rw [List.find?_cons_of_neg (by simpa using Ne.symm hk)]
      · rw [List.find?_cons_of_neg (by simpa using Ne.symm hk),
          List.find?_cons_of_neg (by simpa [← heq] using Ne.symm hk)]
      · simp only [List.find?_cons, ih, if_neg hk]

/-- What a map returns after a `put`: the new value at its key, the old values elsewhere. -/
theorem get_put (m : SortedMap K V) (k k' : K) (v : V) :
    (m.put k v).get k' = if k' = k then some v else m.get k' := by
  simp only [get, put, find?_insertEntry]
  split_ifs <;> rfl

/-- A map holds exactly the entries it returns. -/
theorem mem_entries_iff (m : SortedMap K V) (k : K) (v : V) :
    (k, v) ∈ m.entries ↔ m.get k = some v := by
  obtain ⟨es, hes⟩ := m
  simp only [get]
  induction es with
  | nil => simp
  | cons a es ih =>
    obtain ⟨ha, htail⟩ := List.pairwise_cons.mp hes
    by_cases hk : a.1 = k
    · -- no later entry has this key
      have hnot : (k, v) ∉ es := fun hmem => absurd (ha _ hmem) (by simp [hk])
      rw [List.find?_cons_of_pos (by simpa using hk), List.mem_cons]
      constructor
      · rintro (rfl | hmem)
        · rfl
        · exact absurd hmem hnot
      · intro h
        exact Or.inl (Prod.ext hk.symm (by simpa using h.symm))
    · rw [List.find?_cons_of_neg (by simpa using hk), List.mem_cons, ih htail]
      exact or_iff_right fun h => hk (by rw [← h])

end SortedMap

/-! ## Histories of writes -/

section History

variable {A B V : Type*} [DecidableEq A] [DecidableEq B]

/-- The last value that a history of writes gives to `a`. -/
def lastWrite (a : A) (ws : List (A × V)) : Option V :=
  (ws.reverse.find? fun w => w.1 = a).map Prod.snd

@[simp] theorem lastWrite_nil (a : A) : lastWrite a ([] : List (A × V)) = none := rfl

theorem lastWrite_cons (a : A) (w : A × V) (ws : List (A × V)) :
    lastWrite a (w :: ws) = (lastWrite a ws).or (if w.1 = a then some w.2 else none) := by
  simp only [lastWrite, List.reverse_cons, List.find?_append, Option.map_or]
  congr 1
  by_cases hw : w.1 = a <;> simp [hw]

/-- What a history gives to a key is one of its writes. -/
theorem mem_of_lastWrite {a : A} {v : V} {ws : List (A × V)} (h : lastWrite a ws = some v) :
    (a, v) ∈ ws := by
  obtain ⟨w, hw, rfl⟩ := Option.map_eq_some_iff.mp h
  have hkey : w.1 = a := by simpa using List.find?_some hw
  rw [← hkey]
  exact List.mem_reverse.mp (List.mem_of_find?_eq_some hw)

/-- A history gives a value to every key it writes. -/
theorem exists_lastWrite {w : A × V} {ws : List (A × V)} (hw : w ∈ ws) :
    ∃ v, lastWrite w.1 ws = some v := by
  have hfound : ((ws.reverse).find? fun w' => w'.1 = w.1).isSome := by
    rw [List.find?_isSome]
    exact ⟨w, List.mem_reverse.mpr hw, by simp⟩
  obtain ⟨w', hw'⟩ := Option.isSome_iff_exists.mp hfound
  exact ⟨w'.2, by rw [lastWrite, hw']; rfl⟩

/-- Renaming the keys of a history by an injection renames what it gives to them. -/
theorem lastWrite_map {g : A → B} (hg : Function.Injective g) (a : A) (ws : List (A × V)) :
    lastWrite (g a) (ws.map fun w => (g w.1, w.2)) = lastWrite a ws := by
  induction ws with
  | nil => rfl
  | cons w ws ih => simp only [List.map_cons, lastWrite_cons, ih, hg.eq_iff]

/-- A renamed history writes only to the range of the renaming. -/
theorem lastWrite_map_eq_some_iff {g : A → B} (hg : Function.Injective g) {b : B} {v : V}
    (ws : List (A × V)) :
    lastWrite b (ws.map fun w => (g w.1, w.2)) = some v ↔
      ∃ a, b = g a ∧ lastWrite a ws = some v := by
  constructor
  · intro h
    obtain ⟨w, -, hw⟩ := List.mem_map.mp (mem_of_lastWrite h)
    obtain ⟨rfl, -⟩ := Prod.mk.inj hw
    exact ⟨w.1, rfl, by rw [← lastWrite_map hg, h]⟩
  · rintro ⟨a, rfl, ha⟩
    rw [lastWrite_map hg, ha]

end History

namespace SortedMap

variable {K V : Type*} [LinearOrder K]

/-- Put the entries of a history one after the other. -/
def putAll (m : SortedMap K V) (ws : List (K × V)) : SortedMap K V :=
  ws.foldl (fun m w => m.put w.1 w.2) m

@[simp] theorem putAll_nil (m : SortedMap K V) : m.putAll [] = m := rfl

theorem putAll_append (m : SortedMap K V) (ws ws' : List (K × V)) :
    m.putAll (ws ++ ws') = (m.putAll ws).putAll ws' := List.foldl_append

/-- After a history a map returns what the history gave last, else what it returned before. The
equality test of the history need not be the one of the order. -/
theorem get_putAll [DecidableEq K] (m : SortedMap K V) (ws : List (K × V)) (k : K) :
    (m.putAll ws).get k = (lastWrite k ws).or (m.get k) := by
  induction ws generalizing m with
  | nil => simp
  | cons w ws ih =>
    have hstep : m.putAll (w :: ws) = (m.put w.1 w.2).putAll ws := rfl
    rw [hstep, ih, get_put, lastWrite_cons, Option.or_assoc]
    congr 1
    by_cases hk : k = w.1
    · simp [hk]
    · simp [hk, Ne.symm hk]

theorem mem_entries_of_mem_putAll {m : SortedMap K V} {ws : List (K × V)} {e : K × V}
    (he : e ∈ (m.putAll ws).entries) : e ∈ ws ∨ e ∈ m.entries := by
  classical
  obtain ⟨k, v⟩ := e
  rw [mem_entries_iff, get_putAll, Option.or_eq_some_iff] at he
  rcases he with hlast | ⟨-, hget⟩
  · exact Or.inl (mem_of_lastWrite hlast)
  · exact Or.inr ((mem_entries_iff m k v).mpr hget)

/-- No key is ever lost. -/
theorem isSome_get_putAll {m : SortedMap K V} {k : K} (h : (m.get k).isSome)
    (ws : List (K × V)) : ((m.putAll ws).get k).isSome := by
  classical
  rw [get_putAll, Option.isSome_or, h, Bool.or_true]

theorem length_insertEntry (k : K) (v : V) (es : List (K × V)) :
    es.length ≤ (insertEntry k v es).length ∧ (insertEntry k v es).length ≤ es.length + 1 := by
  induction es with
  | nil => simp [insertEntry]
  | cons a es ih =>
    rw [insertEntry]
    split_ifs <;> simp only [List.length_cons] <;> omega

/-- Every `put` adds at most one entry. -/
theorem length_putAll (m : SortedMap K V) (ws : List (K × V)) :
    m.entries.length ≤ (m.putAll ws).entries.length ∧
      (m.putAll ws).entries.length ≤ m.entries.length + ws.length := by
  induction ws generalizing m with
  | nil => exact ⟨le_refl _, le_refl _⟩
  | cons w ws ih =>
    have hput : m.entries.length ≤ (m.put w.1 w.2).entries.length ∧
        (m.put w.1 w.2).entries.length ≤ m.entries.length + 1 := length_insertEntry _ _ _
    have hrest := ih (m.put w.1 w.2)
    have hstep : m.putAll (w :: ws) = (m.put w.1 w.2).putAll ws := rfl
    rw [hstep, List.length_cons]
    omega

end SortedMap

end BenchLx
