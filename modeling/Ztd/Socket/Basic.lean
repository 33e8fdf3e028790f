import Ztd.Lib.Text

/-! `socket_abstract`: strings over a connected socket. -/

namespace Ztd
open Ztd.Lib

/-- The members that sending and reading look at or change. -/
structure Socket where
  fd : Int := -1
  operational : Bool := false
  parallel : Bool := false
deriving DecidableEq, Repr

namespace Socket

def parallelOff (socket : Socket) : Socket := { socket with parallel := false }

def closeSocket (socket : Socket) : Socket :=
  { socket with operational := false, fd := -1 }.parallelOff

/-- Data can be sent and received. -/
def Connected (socket : Socket) : Prop := ¬ socket.fd < 0 ∧ socket.operational = true

section SystemCalls
variable {World : Type}

/-- `send_string`, over what `send` does with the bytes it is given. -/
def sendString (send : Text → World → Int × World) (text : Text) (socket : Socket)
    (world : World) : Bool × Socket × World :=
  if socket.fd < 0 || !socket.operational then (false, socket, world)
  else
    let (sent, world) := send (text ++ [nul]) world
    if sent < 0 then (false, socket.closeSocket, world) else (true, socket, world)

/-- `read_string`, over what `read` finds when asked for a number of bytes: an
error or the bytes it puts at the beginning of a buffer of 256 zeros. -/
def readString (read : Nat → World → Option Text × World) (socket : Socket) (world : World) :
    Text × Socket × World :=
  if socket.fd < 0 || !socket.operational then ([], socket, world)
  else
    match read 255 world with
    | (some (c :: rest), world) =>
      let buf := (c :: rest) ++ List.replicate (256 - (c :: rest).length) nul
      (cstr buf, socket, world)
    | (_, world) => ([], socket.closeSocket, world)

theorem sendString_connected {socket : Socket} (connected : socket.Connected)
    (send : Text → World → Int × World) (text : Text) (world : World)
    (accepted : 0 ≤ (send (text ++ [nul]) world).1) :
    socket.sendString send text world = (true, socket, (send (text ++ [nul]) world).2) := by
  have enough := Int.not_lt.mpr accepted
  simp [sendString, connected.1, connected.2, enough]

theorem cstr_buffer (bytes : Text) (count : Nat) :
    cstr (bytes ++ List.replicate count nul) = cstr bytes := by
  simp only [cstr, List.takeWhile_append]
  split
  · rename_i whole
    rw [(List.takeWhile_prefix _).eq_of_length whole]
    cases count <;> simp [List.replicate_succ]
  · rfl

theorem readString_connected {socket : Socket} (connected : socket.Connected)
    {read : Nat → World → Option Text × World} {world after : World} {bytes : Text}
    (got : read 255 world = (some bytes, after)) (nonempty : bytes ≠ []) :
    socket.readString read world = (cstr bytes, socket, after) := by
  obtain ⟨c, rest, rfl⟩ := List.exists_cons_of_ne_nil nonempty
  simp only [readString, connected.1, connected.2, got, cstr_buffer]
  simp

end SystemCalls

end Socket

end Ztd
