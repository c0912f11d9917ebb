import BenchLx.Ycsb.UdpReplay

/-!
# The operations of a workload file in order

A file that counts its operations right is replayed operation by operation. The position and the
operation counter stay behind the same operation (`Follows`), whatever calls of `receive` and
`reset` were made before, and a `reset` puts both back in front of the first one.
-/

namespace BenchLx.Ycsb

namespace UDPOpHandler

/-- What the server loop sees of call number `i` after a reset. -/
def replayed (ms : List Message) (i : ℕ) : Result × Option Package :=
  match ms[i]? with
  | some m => (.ready, some m.toPackage)
  | none => (.stop, none)

/-- The handler has loaded `w`, which counts the operations `ms`, and stands behind the first `k` of
them. -/
structure Follows (h : UDPOpHandler) (w : Bytes) (ms : List Message) (trailing : Bytes) (k : ℕ) :
    Prop where
  replays : h.Replays w (ms.take k) (encodeAll (ms.drop k) ++ trailing)
  ops_eq : h.ops.toNat = min k ms.length
  total_eq : h.totalOps.toNat = ms.length

section Follows

variable {h : UDPOpHandler} {w trailing : Bytes} {ms : List Message} {k : ℕ}

theorem Follows.pos_eq (hf : h.Follows w ms trailing k) :
    h.wlPos = 8 + (encodeAll (ms.take k)).length :=
  hf.replays.pos_eq

/-- **One call of `receive`** gives the next operation and stands behind it, or `STOP` behind the
last one. -/
theorem Follows.receive (hf : h.Follows w ms trailing k) :
    ∃ res pkg h', h.receive Package.fresh = .ok (res, pkg, h') ∧
      (ReceiveCall.mk h res pkg h').outcome = replayed ms k ∧ h'.Follows w ms trailing (k + 1) := by
  by_cases hk : k < ms.length
  · have hdrop : ms.drop k = ms[k] :: ms.drop (k + 1) := List.drop_eq_getElem_cons hk
    have hreplays := hf.replays
    rw [hdrop] at hreplays
    have hleft : h.ops < h.totalOps := by
      rw [UInt64.lt_iff_toNat_lt, hf.ops_eq, hf.total_eq]
      omega
    have hnext : h.Replays w (ms.take k)
        (ms[k].encode ++ (encodeAll (ms.drop (k + 1)) ++ trailing)) := by
      rw [← List.append_assoc]
      exact hreplays
    obtain ⟨h', hreceive, hreplays', hops', htotal'⟩ := hnext.replay_one hleft
    refine ⟨.ready, _, h', hreceive, ?_, ?_, ?_, ?_⟩
    · rw [replayed, List.getElem?_eq_getElem hk]
      rfl
    · rw [List.take_succ_eq_append_getElem hk]
      exact hreplays'
    · rw [hops', hf.ops_eq]
      omega
    · rw [htotal', hf.total_eq]
  · -- all operations are behind the handler
    have hdone : h.totalOps ≤ h.ops := by
      rw [UInt64.le_iff_toNat_le, hf.ops_eq, hf.total_eq]
      omega
    refine ⟨.stop, _, h, receive_eq_ok_iff.mpr (.stop hdone), ?_, ?_, ?_, hf.total_eq⟩
    · rw [replayed, List.getElem?_eq_none (by omega)]
      rfl
    · have hreplays := hf.replays
      rw [List.take_of_length_le (by omega), List.drop_eq_nil_of_le (by omega)] at hreplays ⊢
      exact hreplays
    · rw [hf.ops_eq]
      omega

theorem Follows.reset (hf : h.Follows w ms trailing k) : h.reset.Follows w ms trailing 0 := by
  refine ⟨?_, ?_, hf.total_eq⟩
  · have hall : w.drop 8 = encodeAll ms ++ trailing := by
      have hbytes := hf.replays.bytes_eq
      rw [← List.append_assoc, encodeAll, encodeAll, ← List.flatMap_append,
        List.take_append_drop] at hbytes
      exact hbytes
    rw [List.take_zero, List.drop_zero, ← hall]
    exact hf.replays.reset
  · rw [Nat.zero_min]
    rfl

/-- Whatever calls are made, the handler stays behind a number of operations. -/
theorem Follows.runCalls (hf : h.Follows w ms trailing k) (calls : List Call) :
    ∃ h' k', UDPOpHandler.runCalls calls h = .ok h' ∧ h'.Follows w ms trailing k' := by
  induction calls generalizing h k with
  | nil => exact ⟨h, k, rfl, hf⟩
  | cons call calls ih =>
    cases call with
    | receive =>
      obtain ⟨res, pkg, h₁, hreceive, -, hf₁⟩ := hf.receive
      obtain ⟨h', k', hrun, hf'⟩ := ih hf₁
      exact ⟨h', k', bind_eq_ok.mpr ⟨_, hreceive, hrun⟩, hf'⟩
    | reset => exact ih hf.reset

/-- **A run of `receive`** gives the operations from where the handler stands. -/
theorem Follows.receiveCalls (hf : h.Follows w ms trailing k) (n : ℕ) :
    ∃ calls, Ycsb.receiveCalls hdl n h = .ok calls ∧ calls.length = n ∧
      ∀ i (hi : i < calls.length), calls[i].outcome = replayed ms (k + i) ∧
        calls[i].after.wlPos = 8 + (encodeAll (ms.take (k + i + 1))).length := by
  induction n generalizing h k with
  | zero => exact ⟨[], rfl, rfl, fun i hi => absurd hi (Nat.not_lt_zero i)⟩
  | succ n ih =>
    obtain ⟨res, pkg, h', hreceive, houtcome, hf'⟩ := hf.receive
    obtain ⟨calls, hcalls, hlen, hall⟩ := ih hf'
    refine ⟨⟨h, res, pkg, h'⟩ :: calls, ?_, by rw [List.length_cons, hlen], fun i hi => ?_⟩
    · exact receiveCalls_succ_eq_ok_iff.mpr ⟨res, pkg, h', calls, hreceive, hcalls, rfl⟩
    · cases i with
      | zero => exact ⟨houtcome, hf'.pos_eq⟩
      | succ i =>
        have hnext := hall i (by simpa using hi)
        rw [Nat.add_right_comm k 1 i] at hnext
        exact hnext

end Follows

/-- A workload file: the number of operations inserted before, which is not used, the number of
operations, the operations and what follows them. -/
def workloadFile (preins : Bytes) (ms : List Message) (trailing : Bytes) : Bytes :=
  preins ++ (toBytesBE 4 ms.length ++ (encodeAll ms ++ trailing))

section Workload

variable {preins trailing : Bytes} {ms : List Message} (hpreins : preins.length = 4)
include hpreins

theorem workloadFile_drop :
    (workloadFile preins ms trailing).drop 8 = encodeAll ms ++ trailing := by
  rw [workloadFile, ← List.append_assoc, List.drop_left' (by simp [hpreins])]

theorem length_le_workloadFile :
    8 + ms.length ≤ (workloadFile preins ms trailing).length := by
  have hops : (ms.map fun m => m.encode.length).length ≤ (ms.map fun m => m.encode.length).sum := by
    apply List.length_le_sum_of_one_le
    intro n hn
    obtain ⟨m, -, rfl⟩ := List.mem_map.mp hn
    rw [Package.length_encode]
    omega
  rw [List.length_map, ← List.length_flatMap] at hops
  rw [workloadFile, List.length_append, List.length_append, List.length_append, hpreins,
    length_toBytesBE, encodeAll]
  omega

/-- The count in the header is the number of operations. -/
theorem operationCount_workloadFile
    (hfits : (workloadFile preins ms trailing).length ≤ maxFileSize) :
    operationCount (workloadFile preins ms trailing) = ms.length := by
  have hcount := @length_le_workloadFile preins trailing ms hpreins
  have hmax : maxFileSize < 256 ^ 4 := by decide
  rw [operationCount, workloadFile, List.drop_left' hpreins, List.take_left' (by simp),
    ofBytesBE_toBytesBE, Nat.mod_eq_of_lt (by omega)]

end Workload

/-- **A workload file is replayed in order.** Let a workload file that fits into the buffer be
loaded completely. After any calls of `receive` and `reset`, a `reset` and `n` calls of `receive`
give the operations of the file in order and then `STOP` as often as one asks, and each call leaves
the position behind its operation. -/
theorem replay_in_order (contents : Buffer maxFileSize) (reads : List Transfer)
    (writes : ℕ → Transfer) (preins trailing : Bytes) (ms : List Message) (h : UDPOpHandler)
    (hpreins : preins.length = 4)
    (hfits : (workloadFile preins ms trailing).length ≤ maxFileSize)
    (hcreate : create contents reads (workloadFile preins ms trailing) writes = .ok h)
    (hloaded : h.Holds (workloadFile preins ms trailing)) (calls : List Call) :
    ∃ h', runCalls calls h = .ok h' ∧
      ∀ n, ∃ cs, receiveCalls hdl n h'.reset = .ok cs ∧ cs.length = n ∧
        ∀ i (hi : i < cs.length), cs[i].outcome = replayed ms i ∧
          cs[i].after.wlPos = 8 + (encodeAll (ms.take (i + 1))).length := by
  have hlen := @length_le_workloadFile preins trailing ms hpreins
  obtain ⟨hpos, hops, -⟩ := header_of_create hcreate
  have hstart : h.Follows (workloadFile preins ms trailing) ms trailing 0 := by
    refine ⟨⟨hloaded, by omega, ?_, hpos, Nat.zero_le _⟩, ?_, ?_⟩
    · rw [workloadFile_drop hpreins]
      rfl
    · rw [hops, Nat.zero_min]
      rfl
    · rw [totalOps_of_create hcreate hloaded (by omega), operationCount_workloadFile hpreins hfits]
  obtain ⟨h', k, hrun, hf⟩ := hstart.runCalls calls
  refine ⟨h', hrun, fun n => ?_⟩
  obtain ⟨cs, hcs, hcount, hall⟩ := hf.reset.receiveCalls n
  refine ⟨cs, hcs, hcount, fun i hi => ?_⟩
  have hi' := hall i hi
  rw [Nat.zero_add] at hi'
  exact hi'

/-- A file with an update and a READ, loaded in pieces of twenty bytes. -/
theorem replay_in_order_update_read :
    ∃ h, create .zero [.upTo 20, .upTo 20, .upTo 20, .upTo 20]
        (workloadFile [0, 0, 0, 0] [updateMessage, readMessage] []) (fun _ => .upTo 0) = .ok h ∧
      ∀ calls, ∃ h', runCalls calls h = .ok h' ∧ ∃ cs, receiveCalls hdl 3 h'.reset = .ok cs ∧
        cs.map ReceiveCall.outcome = [(.ready, some updateMessage.toPackage),
          (.ready, some readMessage.toPackage), (.stop, none)] := by
  have hsize : (create .zero [.upTo 20, .upTo 20, .upTo 20, .upTo 20]
      (workloadFile [0, 0, 0, 0] [updateMessage, readMessage] []) (fun _ => .upTo 0)).map wlSize
        = .ok 51 := by rfl
  obtain ⟨h, hcreate, -⟩ := map_eq_ok.mp hsize
  have hreads : Delivering [.upTo 20, .upTo 20, .upTo 20, .upTo 20] :=
    fun t ht => ⟨19, by simpa using ht⟩
  have hloaded := (create_spec hreads (by decide) hcreate).1
  refine ⟨h, hcreate, fun calls => ?_⟩
  obtain ⟨h', hrun, hreplay⟩ := replay_in_order _ _ _ [0, 0, 0, 0] [] [updateMessage, readMessage] h
    rfl (by decide) hcreate hloaded calls
  obtain ⟨cs, hcs, hcount, hall⟩ := hreplay 3
  refine ⟨h', hrun, cs, hcs, List.ext_getElem (by simpa using hcount) fun i hi _ => ?_⟩
  rw [List.length_map] at hi
  rw [List.getElem_map, (hall i hi).1]
  rcases i with _ | _ | _ | i
  · rfl
  · rfl
  · rfl
  · omega

end UDPOpHandler

end BenchLx.Ycsb
