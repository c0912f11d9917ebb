import BenchLx.Common.PrefixCodes
import BenchLx.Ycsb.Responses
import BenchLx.Ycsb.TcpFraming
import BenchLx.Ycsb.UdpReplay

/-!
# What the streams say

The operations of a workload file, the frames of a client and the responses of the server are
streams of code words (`PrefixCode`), so none of them can be read in two ways
(`streams_unambiguous`). What has reached the client when a response fails is the start of the reply
stream, and says how many operations were answered and with which sizes (`client_sees_results`).
-/

namespace BenchLx.Ycsb

/-! ## The codes -/

theorem toBytesBE_inj {n x y : ℕ} (hx : x < 256 ^ n) (hy : y < 256 ^ n)
    (h : toBytesBE n x = toBytesBE n y) : x = y := by
  have hvalue := congrArg ofBytesBE h
  rwa [ofBytesBE_toBytesBE, ofBytesBE_toBytesBE, Nat.mod_eq_of_lt hx, Nat.mod_eq_of_lt hy]
    at hvalue

theorem ne_nil_of_append {w rest : Bytes} {n x : ℕ} (hn : 0 < n)
    (hw : w = toBytesBE n x ++ rest) : w ≠ [] := by
  rintro rfl
  have hlen := congrArg List.length hw
  rw [List.length_append, length_toBytesBE, List.length_nil] at hlen
  omega

theorem encode_ne_nil (m : Message) : m.encode ≠ [] := by
  intro h
  have hlen := congrArg List.length h
  rw [Package.length_encode, List.length_nil] at hlen
  omega

theorem eq_of_encode_isPrefix {m m' : Message} (h : m.encode <+: m'.encode) : m = m' := by
  have hdecode := decode_eq_some_iff.mpr ⟨m, h, rfl⟩
  rw [decode_eq_some_iff.mpr ⟨m', List.prefix_refl _, rfl⟩] at hdecode
  exact (Message.toPackage_injective (Option.some.inj hdecode)).symm

/-- A message is its own code word. -/
def messageCode : PrefixCode Message UInt8 where
  encode m := m.encode
  ne_nil := encode_ne_nil
  eq_of_isPrefix := eq_of_encode_isPrefix

theorem frame_ne_nil (d : { d : Bytes // d.length < 256 ^ 4 }) : frame d.1 ≠ [] :=
  ne_nil_of_append (by decide) rfl

theorem eq_of_frame_isPrefix {d d' : { d : Bytes // d.length < 256 ^ 4 }}
    (h : frame d.1 <+: frame d'.1) : d = d' := by
  obtain ⟨t, ht⟩ := h
  rw [frame, frame, List.append_assoc] at ht
  obtain ⟨hword, hrest⟩ := List.append_inj ht (by rw [length_toBytesBE, length_toBytesBE])
  have hlen := toBytesBE_inj d.2 d'.2 hword
  rw [← List.append_nil d'.1] at hrest
  exact Subtype.ext (List.append_inj_left hrest hlen)

/-- A payload whose length fits the four bytes in front of it is sent as its frame. -/
def frameCode : PrefixCode { d : Bytes // d.length < 256 ^ 4 } UInt8 where
  encode d := frame d.1
  ne_nil := frame_ne_nil
  eq_of_isPrefix := eq_of_frame_isPrefix

theorem flatten_responseSends (n : UInt64) :
    (responseSends n).flatten = toBytesBE 8 n.toNat ++ (payloadChunks n.toNat).flatten := by
  rw [responseSends, List.flatten_cons]

theorem response_ne_nil (n : UInt64) : (responseSends n).flatten ≠ [] :=
  ne_nil_of_append (by decide) (flatten_responseSends n)

theorem eq_of_response_isPrefix {n n' : UInt64}
    (h : (responseSends n).flatten <+: (responseSends n').flatten) : n = n' := by
  obtain ⟨t, ht⟩ := h
  rw [flatten_responseSends, flatten_responseSends, List.append_assoc] at ht
  obtain ⟨hword, -⟩ := List.append_inj ht (by rw [length_toBytesBE, length_toBytesBE])
  exact UInt64.toNat_inj.mp (toBytesBE_inj n.toNat_lt n'.toNat_lt hword)

/-- The size of a result is sent as its response. -/
def responseCode : PrefixCode UInt64 UInt8 where
  encode n := (responseSends n).flatten
  ne_nil := response_ne_nil
  eq_of_isPrefix := eq_of_response_isPrefix

theorem flatten_replies (ns : List UInt64) :
    (ns.flatMap responseSends).flatten = responseCode.stream ns := by
  induction ns with
  | nil => rfl
  | cons n ns ih => rw [List.flatMap_cons, List.flatten_append, ih, PrefixCode.stream_cons]; rfl

/-- **The streams are unambiguous.** One list of messages, frames or responses, sent one after the
other, is the start of another one only if its items are the first ones of the other's. So a stream
belongs to one list only, and what has arrived of it says which items it starts with. -/
theorem streams_unambiguous :
    (∀ ms ms' : List Message,
      UDPOpHandler.encodeAll ms <+: UDPOpHandler.encodeAll ms' ↔ ms <+: ms') ∧
    (∀ ds ds' : List Bytes, (∀ d ∈ ds, d.length < 256 ^ 4) → (∀ d ∈ ds', d.length < 256 ^ 4) →
      (frames ds <+: frames ds' ↔ ds <+: ds')) ∧
    ∀ ns ns' : List UInt64,
      (ns.flatMap responseSends).flatten <+: (ns'.flatMap responseSends).flatten ↔ ns <+: ns' := by
  refine ⟨fun ms ms' => messageCode.stream_isPrefix_iff, fun ds ds' hds hds' => ?_,
    fun ns ns' => ?_⟩
  · lift ds to List { d : Bytes // d.length < 256 ^ 4 } using hds
    lift ds' to List { d : Bytes // d.length < 256 ^ 4 } using hds'
    rw [List.prefix_map_iff_of_injective Subtype.val_injective, ← frameCode.stream_isPrefix_iff]
    simp only [frames, PrefixCode.stream, List.flatMap_map]
    rfl
  · rw [flatten_replies, flatten_replies, responseCode.stream_isPrefix_iff]

/-! ## What reaches the client -/

/-- The bytes of a send that were transferred. -/
def Sent.transferred (s : Sent) : Bytes :=
  s.data.take s.res.toNat

theorem Sent.transferred_of_full {s : Sent} (hs : s.Full) : s.transferred = s.data := by
  rw [transferred, hs, Int.toNat_natCast, List.take_length]

/-- Only the last send may be short. -/
inductive FullButLast : List Sent → Prop
  | nil : FullButLast []
  | last (s : Sent) : FullButLast [s]
  | cons {s : Sent} {sent : List Sent} (hs : s.Full) (h : FullButLast sent) :
      FullButLast (s :: sent)

namespace FullButLast

theorem append {xs ys : List Sent} (hxs : ∀ s ∈ xs, s.Full) (hys : FullButLast ys) :
    FullButLast (xs ++ ys) := by
  induction xs with
  | nil => exact hys
  | cons x xs ih => exact .cons (hxs x (by simp)) (ih fun s hs => hxs s (by simp [hs]))

theorem of_sendsUntilShort {chunks : List Bytes} {sent : List Sent} {ok : Bool}
    (h : SendsUntilShort chunks sent ok) : FullButLast sent := by
  induction h with
  | done => exact .nil
  | short => exact .last _
  | full hfull _ ih => exact .cons hfull ih

/-- What is transferred is the start of what is handed over. -/
theorem transferred_isPrefix {sent : List Sent} (h : FullButLast sent) :
    sent.flatMap Sent.transferred <+: (sent.map Sent.data).flatten := by
  induction h with
  | nil => exact List.prefix_refl _
  | last s =>
    simp only [List.flatMap_cons, List.flatMap_nil, List.map_cons, List.map_nil,
      List.flatten_cons, List.flatten_nil, List.append_nil]
    exact List.take_prefix _ _
  | cons hs _ ih =>
    simp only [List.flatMap_cons, List.map_cons, List.flatten_cons, Sent.transferred_of_full hs]
    exact (List.prefix_append_right_inj _).mpr ih

theorem transferred_of_full {sent : List Sent} (h : ∀ s ∈ sent, s.Full) :
    sent.flatMap Sent.transferred = (sent.map Sent.data).flatten := by
  induction sent with
  | nil => rfl
  | cons s sent ih =>
    rw [List.flatMap_cons, List.map_cons, List.flatten_cons,
      Sent.transferred_of_full (h s (by simp)), ih fun x hx => h x (by simp [hx])]

/-- In a run of the loop only the last send may be short. -/
theorem of_serve {H : Type} (hdl : OpHandler H) (cycles : List Cycles) (s : Server H) :
    FullButLast (s.serve hdl cycles).sent := by
  apply Server.serve_induct (P := fun _ _ run => FullButLast run.sent)
  · exact fun _ => .nil
  · intro c _ s round hround _
    rw [Run.sent]
    cases hrecord : round.iteration with
    | none => exact .nil
    | some it =>
      rw [Option.toList_some, List.flatMap_singleton]
      rcases sends_of_iterates hround hrecord with ⟨-, hnil⟩ | ⟨n, ok, -, hsends, -⟩
      · rw [hnil]
        exact .nil
      · exact .of_sendsUntilShort hsends
  · intro c _ s it s' run hround ih
    rw [Run.sent, List.flatMap_cons]
    refine .append ?_ ih
    rcases sends_of_iterates hround rfl with ⟨-, hnil⟩ | ⟨n, ok, -, hsends, hok⟩
    · simp [hnil]
    · -- a round that lets the loop go on has sent its response in full
      refine hsends.ok_iff.mp ?_
      by_contra hne
      rw [if_neg hne] at hok
      cases hok

end FullButLast

/-- **What the client learns.** Whatever becomes of the sends in a run of the server: the bytes that
are transferred are the start of the reply stream; when they contain the responses for some sizes,
these are the sizes of the results of the first operations that were executed; and when no send is
short they are the responses of all of them and nothing else. -/
theorem client_sees_results {H : Type} (hdl : OpHandler H) (cycles : List Cycles) (s : Server H) :
    let run := s.serve hdl cycles
    let received := run.sent.flatMap Sent.transferred
    received <+: (run.results.flatMap responseSends).flatten ∧
    (∀ ns : List UInt64, (ns.flatMap responseSends).flatten <+: received → ns <+: run.results) ∧
    ((∀ x ∈ run.sent, x.Full) → ∀ ns : List UInt64,
      (ns.flatMap responseSends).flatten = received ↔ ns = run.results) := by
  intro run received
  have hdata : run.sent.map Sent.data <+: run.replies ∧
      ((∀ x ∈ run.sent, x.Full) → run.sent.map Sent.data = run.replies) := sent_of_serve cycles s
  have hreplies : (run.results.flatMap responseSends).flatten = run.replies.flatten := rfl
  have hstart : received <+: run.replies.flatten := by
    refine (FullButLast.of_serve hdl cycles s).transferred_isPrefix.trans ?_
    obtain ⟨more, hmore⟩ := hdata.1
    rw [← hmore, List.flatten_append]
    exact List.prefix_append _ _
  refine ⟨hstart, fun ns hns => ?_, fun hfull ns => ?_⟩
  · have hle := hns.trans hstart
    rwa [← hreplies, flatten_replies, flatten_replies, responseCode.stream_isPrefix_iff] at hle
  · have hreceived : received = run.replies.flatten := by
      rw [← hdata.2 hfull]
      exact FullButLast.transferred_of_full hfull
    rw [hreceived, ← hreplies, flatten_replies, flatten_replies,
      responseCode.stream_injective.eq_iff]

end BenchLx.Ycsb
