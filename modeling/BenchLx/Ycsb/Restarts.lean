import BenchLx.Ycsb.ReadAll
import BenchLx.Ycsb.Records

/-!
# Restarts, retries and what was written last

The store outlives the server. So a server that is started on the store of another one goes on where
that one has ended (`restart_makes_no_difference`), also when it starts with the operation whose
response got lost; and without SCAN any part of the operations may be sent again, as far as the
store is concerned (`replay_leads_to_same_store`). What a READ of named fields is answered with is
what was written last, by whichever server (`reads_see_last_writes`).
-/

namespace BenchLx.Ycsb

/-! ## Services one after the other -/

theorem service_cons_of_ok {db : DB} {pkg : Package} {n : UInt64}
    (h : resultOf db pkg = .ok n) (pkgs : List Package) :
    service db (pkg :: pkgs)
      = { service (storeAfter db pkg) pkgs with
          log := (pkg, n) :: (service (storeAfter db pkg) pkgs).log } := by
  rw [service, h]

/-- A service without an error has executed every package. -/
theorem log_of_service {db : DB} {pkgs : List Package} (h : (service db pkgs).error = none) :
    (service db pkgs).log.map Prod.fst = pkgs := by
  induction pkgs generalizing db with
  | nil => rfl
  | cons pkg pkgs ih =>
    cases hresult : resultOf db pkg with
    | error why =>
      rw [service, hresult] at h
      cases h
    | ok n =>
      rw [service_cons_of_ok hresult] at h ⊢
      rw [List.map_cons, ih h]

/-- Its store is the old one with all writes. -/
theorem store_of_service {db : DB} {pkgs : List Package} (h : (service db pkgs).error = none) :
    (service db pkgs).store = db.putAll ((writesOf pkgs).map storedWrite) := by
  induction pkgs generalizing db with
  | nil => rfl
  | cons pkg pkgs ih =>
    cases hresult : resultOf db pkg with
    | error why =>
      rw [service, hresult] at h
      cases h
    | ok n =>
      rw [service_cons_of_ok hresult] at h ⊢
      simp only at h ⊢
      rw [ih h, storeAfter, ← SortedMap.putAll_append, ← List.map_append]
      rfl

/-- What comes behind a service without an error is served on its store. -/
theorem service_append {db : DB} {pkgs : List Package} (h : (service db pkgs).error = none)
    (rest : List Package) :
    service db (pkgs ++ rest)
      = { service (service db pkgs).store rest with
          log := (service db pkgs).log ++ (service (service db pkgs).store rest).log } := by
  induction pkgs generalizing db with
  | nil => rfl
  | cons pkg pkgs ih =>
    cases hresult : resultOf db pkg with
    | error why =>
      rw [service, hresult] at h
      cases h
    | ok n =>
      rw [service_cons_of_ok hresult] at h ⊢
      rw [List.cons_append, service_cons_of_ok hresult, ih h]
      rfl

/-! ## Packages that are executed again -/

theorem storeAfter_again (db : DB) (pkg : Package) :
    storeAfter (storeAfter db pkg) pkg = storeAfter db pkg :=
  db.putAll_putAll_self _

/-- The result is the same, too: what writes does not read. -/
theorem resultOf_again (db : DB) (pkg : Package) :
    resultOf (storeAfter db pkg) pkg = resultOf db pkg := by
  have hstore : pkg.writes = [] → storeAfter db pkg = db := fun h => by rw [storeAfter, h]; rfl
  rw [resultOf, resultOf]
  cases hop : pkg.operation with
  | none => rfl
  | some op =>
    cases op with
    | insert | update | delete => rfl
    | read | scan => rw [hstore (by simp [Package.writes, hop])]

theorem service_again {db : DB} {pkg : Package} (h : (service db [pkg]).error = none)
    (rest : List Package) :
    service (service db [pkg]).store (pkg :: rest) = service db (pkg :: rest) := by
  cases hresult : resultOf db pkg with
  | error why =>
    rw [service, hresult] at h
    cases h
  | ok n =>
    have hagain := (resultOf_again db pkg).trans hresult
    rw [service_cons_of_ok hresult, service_cons_of_ok hresult]
    simp only [service]
    rw [hagain, storeAfter_again]

/-- What comes behind a package can be served together with that package again. -/
theorem service_retry {db : DB} {init : List Package} {pkg : Package}
    (h : (service db (init ++ [pkg])).error = none) (rest : List Package) :
    service (service db (init ++ [pkg])).store (pkg :: rest)
        = service (service db init).store (pkg :: rest) ∧
      (service db init).error = none ∧
      (service db (init ++ [pkg])).log.take init.length = (service db init).log := by
  have hinit : (service db init).error = none := by
    by_contra herror
    obtain ⟨why, hwhy⟩ := Option.ne_none_iff_exists'.mp herror
    rw [service_append_of_error hwhy, hwhy] at h
    cases h
  have hlen : (service db init).log.length = init.length := by
    rw [← List.length_map Prod.fst, log_of_service hinit]
  have hlast := service_append hinit [pkg]
  have hok : (service (service db init).store [pkg]).error = none := by
    rw [hlast] at h
    exact h
  rw [hlast]
  refine ⟨service_again hok rest, hinit, ?_⟩
  rw [← hlen, List.take_left]

/-- **Going on.** After some packages the service can go on with the next package or with the last
one it has served. -/
theorem service_resume {db : DB} {done : List Package} (h : (service db done).error = none)
    (rest : List Package) {back : ℕ} (hback : back ≤ 1) {second : Served}
    (hsecond :
      service (service db done).store ((done ++ rest).drop (done.length - back)) = second) :
    service db (done ++ rest)
      = ⟨second.store, (service db done).log.take (done.length - back) ++ second.log,
          second.error⟩ := by
  subst hsecond
  have hlen : (service db done).log.length = done.length := by
    rw [← List.length_map Prod.fst, log_of_service h]
  have hnext : service db (done ++ rest)
      = ⟨(service (service db done).store rest).store,
          (service db done).log ++ (service (service db done).store rest).log,
          (service (service db done).store rest).error⟩ := service_append h rest
  rcases Nat.le_one_iff_eq_zero_or_eq_one.mp hback with rfl | rfl
  · rw [Nat.sub_zero, List.drop_left, ← hlen, List.take_length]
    exact hnext
  · rcases List.eq_nil_or_concat' done with rfl | ⟨init, pkg, rfl⟩
    · exact hnext
    · obtain ⟨hretry, hinit, htake⟩ := service_retry h rest
      have hdrop : (init ++ [pkg] ++ rest).drop init.length = pkg :: rest := by
        rw [List.append_assoc, List.drop_left, List.singleton_append]
      rw [List.length_append, List.length_singleton, Nat.add_sub_cancel, hdrop, hretry, htake,
        List.append_assoc, List.singleton_append]
      exact service_append hinit (pkg :: rest)

section Restart

variable {H H' H'' : Type} {run : Run H} {run' : Run H'} {full : Run H''} {db : DB}
  {ps ps' : List (Option Package)} {rounds : ℕ}

/-- What a run that has not been stopped has served. -/
theorem ServesPrefix.exists_done (hrun : ServesPrefix db ps rounds run)
    (hok : run.status.why = none) :
    ∃ done rest, ps.reduceOption = done ++ rest ∧ service db done = run.served ∧
      (service db done).error = none ∧ run.log.length = done.length := by
  obtain ⟨⟨done, rest, hps, hserved, -⟩, -⟩ := hrun
  have herror : (service db done).error = none := by
    rw [hserved]
    exact hok
  refine ⟨done, rest, hps, hserved, herror, ?_⟩
  rw [show run.log = (service db done).log by rw [hserved]; rfl, ← List.length_map Prod.fst,
    log_of_service herror]

theorem ServesAll.status_eq {db' : DB} (h : ServesAll db ps full) (h' : ServesAll db' ps' run')
    (herror : full.served.error = run'.served.error) : full.status = run'.status := by
  rw [h.status, h'.status, herror]

theorem ServesAll.servesPrefix (h : ServesAll db ps run) (rounds : ℕ) :
    ServesPrefix db ps rounds run := by
  refine ⟨⟨_, [], (List.append_nil _).symm, h.served, fun _ => .inl rfl⟩, fun _ => ?_⟩
  rw [h.status]
  split <;> simp

end Restart

/-- **Restarts and retries.** Let a server have served the first ones of some packages when it was
cut off, by a response that could not be sent or because nobody called it any more. Start a server
on its store, with the packages from the first one on that has not been executed, or from the last
one on that has been, since its response may be lost. When it serves them all, it leaves the store
and ends like a server that is never cut off, and the results of both servers together, less those
of the retried package, are the results of that one. -/
theorem restart_makes_no_difference {H H' H'' : Type} (run : Run H) (run' : Run H')
    (full : Run H'') (db : DB) (ps ps' : List (Option Package)) (rounds back : ℕ)
    (hrun : ServesPrefix db ps rounds run) (hok : run.status.why = none) (hback : back ≤ 1)
    (hrest : ps'.reduceOption = ps.reduceOption.drop (run.log.length - back))
    (hrun' : ServesAll run.server.exec.db ps' run') (hfull : ServesAll db ps full) :
    full.server.exec.db = run'.server.exec.db ∧ full.status = run'.status ∧
      full.log = run.log.take (run.log.length - back) ++ run'.log := by
  obtain ⟨done, rest, hps, hserved, herror, hlen⟩ := hrun.exists_done hok
  have hsecond : service (service db done).store ((done ++ rest).drop (done.length - back))
      = run'.served := by
    rw [← hps, ← hlen, ← hrest, hserved]
    exact hrun'.served
  have hserve := (hfull.served.symm.trans (congrArg _ hps)).trans
    (service_resume herror rest hback hsecond)
  rw [hserved, ← hlen] at hserve
  exact ⟨congrArg Served.store hserve, hfull.status_eq hrun' (by rw [hserve]),
    congrArg Served.log hserve⟩

open SortedMap (empty) in
/-- A server for the READ alone, behind one that has executed the update and the READ. -/
theorem restart_makes_no_difference_read :
    (pairwiseRun empty [updateMessage, readMessage]).log
      = (pairwiseRun empty [updateMessage, readMessage]).log.take 1
        ++ (pairwiseRun (pairwiseRun empty [updateMessage, readMessage]).server.exec.db
          [readMessage]).log := by
  have hall := servesAll_pairwiseRun empty encode_le_packageBufferSize
  obtain ⟨hstatus, -, hlog⟩ := hall.eq_answers (by decide)
  have hok : (pairwiseRun empty [updateMessage, readMessage]).status.why = none := by
    rw [hstatus]
    rfl
  have hlen : (pairwiseRun empty [updateMessage, readMessage]).log.length = 2 := by
    rw [hlog]
    rfl
  have hrestart := restart_makes_no_difference _ _ _ empty _ _ 3 1 (hall.servesPrefix 3) hok le_rfl
    (by rw [hlen]; rfl)
    (servesAll_pairwiseRun (pairwiseRun empty [updateMessage, readMessage]).server.exec.db
      (show ∀ m ∈ [readMessage], m.encode.length ≤ packageBufferSize by decide)) hall
  rw [hlen] at hrestart
  exact hrestart.2.2

/-! ## Replays -/

/-- **Replays.** Let a server without SCAN have served the first ones of some packages when it was
cut off, and start a server on its store with the packages from any one on up to the first that has
not been executed. When it serves them all, it leaves the store of a server that is never cut
off. -/
theorem replay_leads_to_same_store {H H' H'' : Type} (run : Run H) (run' : Run H')
    (full : Run H'') (db : DB) (ps ps' : List (Option Package)) (rounds n : ℕ)
    (hrun : ServesPrefix db ps rounds run) (hok : run.status.why = none)
    (hscan : ∀ pkg ∈ ps.reduceOption, pkg.operation ≠ some .scan) (hn : n ≤ run.log.length)
    (hrest : ps'.reduceOption = ps.reduceOption.drop n)
    (hrun' : ServesAll run.server.exec.db ps' run') (hfull : ServesAll db ps full) :
    full.server.exec.db = run'.server.exec.db := by
  obtain ⟨done, rest, hps, hserved, herror, hlen⟩ := hrun.exists_done hok
  have hstores : ∀ (db : DB) {pkgs : List Package}, (∀ pkg ∈ pkgs, pkg.operation ≠ some .scan) →
      (service db pkgs).store = db.putAll ((writesOf pkgs).map storedWrite) := fun db pkgs h =>
    store_of_service (by rw [service_eq_answers db h])
  have hfirst : run.server.exec.db = db.putAll ((writesOf done).map storedWrite) := by
    rw [← store_of_service herror, hserved]
    rfl
  have hsecond : run'.server.exec.db
      = run.server.exec.db.putAll ((writesOf ps'.reduceOption).map storedWrite) := by
    rw [← hstores _ fun pkg hpkg => hscan pkg (List.mem_of_mem_drop (hrest ▸ hpkg)), hrun'.served]
    rfl
  have hall : full.server.exec.db = db.putAll ((writesOf ps.reduceOption).map storedWrite) := by
    rw [← hstores _ hscan, hfull.served]
    rfl
  -- the packages that both servers have executed come before those of the second alone
  obtain ⟨once, twice, rfl, hdrop⟩ :
      ∃ once twice, done = once ++ twice ∧ ps.reduceOption.drop n = twice ++ rest := by
    refine ⟨done.take n, done.drop n, (List.take_append_drop n done).symm, ?_⟩
    rw [hps, List.drop_append_of_le_length (by omega)]
  rw [hall, hsecond, hfirst, hrest, hdrop, hps]
  simp only [writesOf, List.flatMap_append, List.map_append, SortedMap.putAll_append,
    SortedMap.putAll_putAll_self]

open SortedMap (empty) in
/-- The update and the READ once more. -/
theorem replay_leads_to_same_store_read :
    (pairwiseRun empty [updateMessage, readMessage]).server.exec.db
      = (pairwiseRun (pairwiseRun empty [updateMessage, readMessage]).server.exec.db
          [updateMessage, readMessage]).server.exec.db := by
  have hall := servesAll_pairwiseRun empty encode_le_packageBufferSize
  obtain ⟨hstatus, -, -⟩ := hall.eq_answers (by decide)
  exact replay_leads_to_same_store _ _ _ empty _ _ 3 0 (hall.servesPrefix 3)
    (by rw [hstatus]; rfl) (by decide) (Nat.zero_le _) rfl
    (servesAll_pairwiseRun (pairwiseRun empty [updateMessage, readMessage]).server.exec.db
      encode_le_packageBufferSize) hall

/-! ## Reading what was written -/

/-- The value of a field name of a record after some writes: the last one written to it, when the
name starts with the prefix. -/
def readBack (ws : List ((UInt64 × Bytes) × Bytes)) (key : UInt64) (name : Bytes) : Option Bytes :=
  if fieldPrefix <+: name then lastWrite (key, name.drop fieldPrefix.length) ws else none

/-- The size of the result of a READ of named fields. -/
def readSize (ws : List ((UInt64 × Bytes) × Bytes)) (pkg : Package) : ℕ :=
  (pkg.kvPairs.map fun kv =>
    match readBack ws pkg.key kv.1 with
    | some v => kv.1.length + v.length
    | none => 0).sum

theorem get_storeOf (ws : List ((UInt64 × Bytes) × Bytes)) (key : UInt64) (name : Bytes) :
    (storeOf ws).get (packKey key name []) = readBack ws key name := by
  refine Option.ext fun v => ?_
  rw [← SortedMap.mem_entries_iff, mem_storeOf_iff, readBack]
  simp only [packKey_eq_storedKey_iff]
  constructor
  · rintro ⟨k, f, ⟨rfl, rfl⟩, hlast⟩
    rw [if_pos (List.prefix_append _ _), List.drop_left]
    exact hlast
  · intro h
    split at h
    · next hname =>
      obtain ⟨f, rfl⟩ := hname
      rw [List.drop_left] at h
      exact ⟨key, f, ⟨rfl, rfl⟩, h⟩
    · cases h

theorem resultOf_read {ws : List ((UInt64 × Bytes) × Bytes)} {pkg : Package}
    (hop : pkg.operation = some .read) (hnames : pkg.kvPairs ≠ []) :
    resultOf (storeOf ws) pkg = .ok (UInt64.ofNat (readSize ws pkg)) := by
  rw [resultOf, hop]
  simp only
  rw [resultBytes_eq, execRead, if_neg (by simpa using hnames), readSize]
  congr 2
  induction pkg.kvPairs with
  | nil => rfl
  | cons kv kvs ih =>
    rw [List.filterMap_cons, get_storeOf, List.map_cons, List.sum_cons, ← ih]
    cases readBack ws pkg.key kv.1 with
    | none => simp
    | some v => simp

theorem putAll_storeOf (ws ws' : List ((UInt64 × Bytes) × Bytes)) :
    (storeOf ws).putAll (ws'.map storedWrite) = storeOf (ws ++ ws') := by
  rw [storeOf, storeOf, List.map_append, SortedMap.putAll_append]

/-- The result of a package is one on the store that the packages before it have left. -/
theorem resultOf_of_log {db : DB} {pkgs : List Package} (h : (service db pkgs).error = none)
    {before after : List (Package × UInt64)} {pkg : Package} {n : UInt64}
    (hlog : (service db pkgs).log = before ++ (pkg, n) :: after) :
    resultOf (db.putAll ((writesOf (before.map Prod.fst)).map storedWrite)) pkg = .ok n := by
  induction pkgs generalizing db before with
  | nil => simp [service] at hlog
  | cons p pkgs ih =>
    cases hresult : resultOf db p with
    | error why =>
      rw [service, hresult] at h
      cases h
    | ok m =>
      rw [service_cons_of_ok hresult] at h hlog
      cases before with
      | nil =>
        obtain ⟨hhead, -⟩ := List.cons.inj hlog
        cases hhead
        exact hresult
      | cons e before =>
        obtain ⟨rfl, htail⟩ := List.cons.inj hlog
        have hrest := ih h htail
        rw [storeAfter, ← SortedMap.putAll_append, ← List.map_append] at hrest
        exact hrest

/-- In a run of the server a result is one on the store that all writes before have left. -/
theorem resultOf_of_serve {H : Type} {hdl : OpHandler H} {h : H}
    {ws : List ((UInt64 × Bytes) × Bytes)} {cycles : List Cycles}
    {before after : List (Package × UInt64)} {pkg : Package} {n : UInt64}
    (hlog : ((Server.start hdl h (storeOf ws)).serve hdl cycles).log
      = before ++ (pkg, n) :: after) :
    resultOf (storeOf (ws ++ writesOf (before.map Prod.fst))) pkg = .ok n := by
  have hserved : service (storeOf ws)
      (((Server.start hdl h (storeOf ws)).serve hdl cycles).log.map Prod.fst) = _ :=
    (serve_log hdl cycles (Server.start hdl h (storeOf ws))).1
  have hresult := @resultOf_of_log (storeOf ws) _ (by rw [hserved]) before after pkg n
    (by rw [hserved]; exact hlog)
  rwa [putAll_storeOf] at hresult

/-- **Reading what was written last.** In every run of the server, over any handler and whatever
becomes of the sends, on a store that some writes have left: the size of the result of a READ that
names fields is the size of those names, with the prefix, that have been written for the record
before, by this server or earlier, together with the values written last. -/
theorem reads_see_last_writes {H : Type} (hdl : OpHandler H) (h : H)
    (ws : List ((UInt64 × Bytes) × Bytes)) (cycles : List Cycles)
    (before after : List (Package × UInt64)) (pkg : Package) (n : UInt64)
    (hlog : ((Server.start hdl h (storeOf ws)).serve hdl cycles).log = before ++ (pkg, n) :: after)
    (hop : pkg.operation = some .read) (hnames : pkg.kvPairs ≠ []) :
    n = UInt64.ofNat (readSize (ws ++ writesOf (before.map Prod.fst)) pkg) := by
  have hresult := resultOf_of_serve hlog
  rw [resultOf_read hop hnames] at hresult
  exact (Except.ok.inj hresult).symm

/-- A READ of the field that `updateMessage` writes. -/
def readFieldMessage : Message :=
  ⟨⟨3, 0, 1, 7, 0, [(ascii "field0", [])]⟩, by decide, by simp [ShortPair, ascii]⟩

/-- The name has six bytes and the value two. -/
theorem reads_see_last_writes_field :
    ∃ n, (pairwiseRun (storeOf []) [updateMessage, readFieldMessage]).log
        = [(updateMessage.toPackage, 4)] ++ (readFieldMessage.toPackage, n) :: [] ∧ n = 8 := by
  obtain ⟨-, -, hlog⟩ := (servesAll_pairwiseRun (storeOf [])
    (show ∀ m ∈ [updateMessage, readFieldMessage], m.encode.length ≤ packageBufferSize by
      decide)).eq_answers (by decide)
  refine ⟨_, hlog, ?_⟩
  exact reads_see_last_writes TCPOpHandler.hdl _ [] _ [(updateMessage.toPackage, 4)] [] _ _ hlog
    rfl (by decide)

end BenchLx.Ycsb
