import Leaderboards.Auth.Middleware
import Leaderboards.Routes

/-!
# `ws.rs`

What a WebSocket connection may do is decided once, when it is upgraded. The upgrade is a GET, so
the middleware has only checked that the caller may read.
-/

namespace Leaderboards.Ws

open Interaction

/-- What `handle_socket` keeps of a connection. -/
structure Connection where
  boardSlug : String
  writeAuthorized : Bool

/-- `process_score`: one text frame. -/
def Connection.processScore (connection : Connection) (caller : Caller)
    (payload : Except String SubmitScore) : Action (Except String Unit) :=
  tryProcessScore caller connection.boardSlug payload connection.writeAuthorized

/-- `ws::stream`; `subscription` is what the event bus says to a new receiver. -/
def stream {Key : Type} (lib : Auth.Jsonwebtoken Key) (mac : Auth.Mac) (clock : Auth.Clock)
    (mode : Auth.AuthMode Key) (wsEnabled : Bool) (subscription : Except Error Unit)
    (boardSlug : String) (headers : Auth.HeaderMap) : Action Connection := do
  Prog.failIf (¬wsEnabled = true) (.serviceUnavailable "WebSocket streaming is not enabled")
  let _ ← Boards.getBySlug boardSlug
  Prog.ofExcept subscription
  return { boardSlug, writeAuthorized := Auth.hasWriteAuth lib mac clock mode headers }

/-- The connections of `stream` carry the answer of `has_write_auth`. -/
theorem writeAuthorized_of_stream {Key : Type} {lib : Auth.Jsonwebtoken Key} {mac : Auth.Mac}
    {clock : Auth.Clock} {mode : Auth.AuthMode Key} {wsEnabled : Bool}
    {subscription : Except Error Unit} {boardSlug : String} {headers : Auth.HeaderMap}
    {connection : Connection}
    (h : (stream lib mac clock mode wsEnabled subscription boardSlug headers).Returns connection) :
    connection.writeAuthorized = Auth.hasWriteAuth lib mac clock mode headers := by
  obtain ⟨_, -, h⟩ := Prog.returns_bind.mp h
  obtain ⟨_, -, h⟩ := Prog.returns_bind.mp h
  obtain ⟨_, -, h⟩ := Prog.returns_bind.mp h
  obtain rfl : _ = connection := h
  rfl

/-- A connection without write access gets an error, and nothing else happens. -/
theorem Connection.processScore_unauthorized {connection : Connection}
    (h : connection.writeAuthorized = false) (caller : Caller)
    (payload : Except String SubmitScore) : connection.processScore caller payload =
      .ret (.error "unauthorized: score submission requires write access") := by
  simp [processScore, tryProcessScore, h]

end Leaderboards.Ws
