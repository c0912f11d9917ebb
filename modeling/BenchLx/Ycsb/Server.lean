import BenchLx.Ycsb.Handler
import BenchLx.Ycsb.Ops

/-!
# The server loop

Reference: `main` in `apps/ycsbserver/leveldb.cc`, from the reset of the statistics to the end of
the loop. The cycle counter is read anew in every round, so the readings are given as a list with
one element for each round; a run over all finite lists is a run of any length.
-/

namespace BenchLx.Ycsb

/-- The state of `main`: the handler, the executor and `opcounter`. -/
structure Server (H : Type) where
  handler : H
  exec : LevelDBExecutor
  opcounter : UInt64

/-- What a round of the loop did: the call of `receive`, the outcome of `execute` if it was called,
and the sends of the response. -/
structure Iteration (H : Type) where
  call : ReceiveCall H
  executed : Option (Except Stop UInt64)
  sent : List Sent

/-- Whether the loop goes on, has ended, or is inside a call that does not return. -/
inductive Status
  | running
  | ended
  | stopped (why : Stop)
deriving DecidableEq, Repr

/-- The outcome of one round. There is no record of a round whose `receive` does not return. -/
structure Round (H : Type) where
  iteration : Option (Iteration H)
  server : Server H
  status : Status

/-- The outcome of a number of rounds. -/
structure Run (H : Type) where
  iterations : List (Iteration H)
  server : Server H
  status : Status

namespace Server

variable {H : Type}

/-- The state in which the loop is entered: `reset_stats` and `reset` have been called. -/
def start (hdl : OpHandler H) (h : H) (db : DB) : Server H :=
  { handler := hdl.reset h, exec := (LevelDBExecutor.create db).resetStats, opcounter := 0 }

/-- One round of the loop. -/
def iterate (hdl : OpHandler H) (cycles : Cycles) (s : Server H) : Round H :=
  match hdl.receive s.handler Package.fresh with
  | .error why => { iteration := none, server := s, status := .stopped why }
  | .ok (result, pkg, h) =>
    let call : ReceiveCall H := ⟨s.handler, result, pkg, h⟩
    match result with
    | .stop =>
      { iteration := some ⟨call, none, []⟩, server := { s with handler := h }, status := .ended }
    | .incomplete =>
      { iteration := some ⟨call, none, []⟩, server := { s with handler := h }, status := .running }
    | .ready =>
      match s.exec.execute cycles pkg with
      | .error why =>
        { iteration := some ⟨call, some (.error why), []⟩, server := { s with handler := h }
          status := .stopped why }
      | .ok (resBytes, exec) =>
        let response := respond hdl h resBytes
        if response.ok then
          { iteration := some ⟨call, some (.ok resBytes), response.sent⟩
            server := { handler := response.handler, exec, opcounter := s.opcounter + 1 }
            status := .running }
        else
          { iteration := some ⟨call, some (.ok resBytes), response.sent⟩
            server := { handler := response.handler, exec, opcounter := s.opcounter }
            status := .ended }

/-- The loop, for as many rounds as there are readings of the cycle counter. -/
def serve (hdl : OpHandler H) : List Cycles → Server H → Run H
  | [], s => { iterations := [], server := s, status := .running }
  | cycles :: rest, s =>
    let round := s.iterate hdl cycles
    if round.status = .running then
      let run := serve hdl rest round.server
      { run with iterations := round.iteration.toList ++ run.iterations }
    else
      { iterations := round.iteration.toList, server := round.server, status := round.status }

end Server

end BenchLx.Ycsb
