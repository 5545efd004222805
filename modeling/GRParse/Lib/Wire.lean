import Mathlib.Data.List.Basic

/-!
# The write discipline of a server stream

A server writes the events of a stream one at a time: it starts a write, hears that the write
is done, and may then start the next one, or finish the stream with a status.  A `Wire` keeps
what a client can tell of that, and `Wire.run` plays a history of what the server did, unless
something in it was out of order.
-/

namespace Stream

variable {ε σ κ : Type}

/-- What a server does and hears: it starts a write, a write is done, it finishes the stream,
or it calls something that is not on the wire. -/
inductive Action (ε σ κ : Type) where
  | startWrite (event : ε)
  | writeDone (ok : Bool)
  | finish (status : σ)
  | call (other : κ)
  deriving DecidableEq

/-- The wire: the event that is being written, the events that were written, and whether the
stream is finished. -/
structure Wire (ε : Type) where
  writing : Option ε := none
  written : List ε := []
  finished : Bool := false

namespace Wire

variable (mayFinish : List ε → σ → Bool)

/-- A write starts when no other is outstanding and the stream is not finished, it is done once
it was started, and the stream is finished once, with no write outstanding and a status that
suits the events written. -/
def step (wire : Wire ε) : Action ε σ κ → Option (Wire ε)
  | .startWrite event =>
    if wire.writing.isNone && !wire.finished then some { wire with writing := some event }
    else none
  | .writeDone ok =>
    match wire.writing with
    | some event =>
      some { wire with
        writing := none
        written := if ok then wire.written ++ [event] else wire.written }
    | none => none
  | .finish status =>
    if wire.writing.isNone && !wire.finished && mayFinish wire.written status then
      some { wire with finished := true }
    else none
  | .call _ => some wire

/-- The wire after a history, nothing when the history is out of order. -/
def run (history : List (Action ε σ κ)) : Option (Wire ε) :=
  history.foldlM (step mayFinish) {}

/-- A history goes on where it was in order. -/
theorem run_append_singleton (history : List (Action ε σ κ)) (action : Action ε σ κ) :
  run mayFinish (history ++ [action]) = (run mayFinish history).bind (step mayFinish · action)
  := by
  simp [run, List.foldlM_append]

end Wire

end Stream
