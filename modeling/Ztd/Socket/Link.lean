import Ztd.Socket.Basic
import Ztd.Lib.Trace
import Mathlib.Data.List.TakeWhile

/-! Two sockets with a byte stream between them: one side sends strings, the
other reads strings, and the network moves bytes from one to the other. -/

namespace Ztd
open Ztd.Lib

/-- One direction of a connection: nothing is lost or reordered. -/
structure Channel where
  inFlight : Text := []
  delivered : Text := []
deriving DecidableEq, Repr

namespace Channel

/-- `send` accepts all it is given. -/
def send (bytes : Text) (channel : Channel) : Int × Channel :=
  (bytes.length, { channel with inFlight := channel.inFlight ++ bytes })

def deliver (count : Nat) (channel : Channel) : Channel :=
  { inFlight := channel.inFlight.drop count
    delivered := channel.delivered ++ channel.inFlight.take count }

/-- `read` returns bytes that have arrived, at least one and at most what it is
asked for; how many is not determined by the program. -/
def read (bytes : Text) (asked : Nat) (channel : Channel) : Option Text × Channel :=
  if bytes ≠ [] ∧ bytes.length ≤ asked ∧ bytes <+: channel.delivered then
    (some bytes, { channel with delivered := channel.delivered.drop bytes.length })
  else (none, channel)

end Channel

/-- The connection with a record of the strings that went in, the bytes each
`read` returned and the strings that came out. -/
structure Link where
  sender : Socket
  receiver : Socket
  channel : Channel := {}
  sent : List Text := []
  reads : List Text := []
  received : List Text := []
deriving DecidableEq, Repr

namespace Link

inductive Event where
  | send (text : Text)
  | deliver (count : Nat)
  | read (bytes : Text)
deriving DecidableEq, Repr

/-- Sender, network and receiver step in any order. -/
inductive Step : Link → Event → Link → Prop where
  | send {link : Link} {text : Text} {sender : Socket} {channel : Channel} (plain : nul ∉ text)
      (sends : link.sender.sendString Channel.send text link.channel = (true, sender, channel)) :
      Step link (.send text)
        { link with sender := sender, channel := channel, sent := link.sent ++ [text] }
  | deliver {link : Link} (count : Nat) :
      Step link (.deliver count) { link with channel := link.channel.deliver count }
  | read {link : Link} {bytes result : Text} {receiver : Socket} {channel : Channel}
      (arrived : bytes ≠ [] ∧ bytes.length ≤ 255 ∧ bytes <+: link.channel.delivered)
      (reads : link.receiver.readString (Channel.read bytes) link.channel =
        (result, receiver, channel)) :
      Step link (.read bytes)
        { link with
          receiver := receiver
          channel := channel
          reads := link.reads ++ [bytes]
          received := link.received ++ [result] }

/-- Both ends are connected and nothing was sent yet. -/
structure Fresh (link : Link) : Prop where
  sender : link.sender.Connected
  receiver : link.receiver.Connected
  channel : link.channel = {}
  sent : link.sent = []
  reads : link.reads = []
  received : link.received = []

structure Invariant (link : Link) : Prop where
  sender : link.sender.Connected
  receiver : link.receiver.Connected
  plain : ∀ text ∈ link.sent, nul ∉ text
  conserved : link.reads.flatten ++ link.channel.delivered ++ link.channel.inFlight =
    link.sent.flatMap (· ++ [nul])
  results : link.received = link.reads.map cstr

theorem Fresh.invariant {link : Link} (fresh : Fresh link) : Invariant link where
  sender := fresh.sender
  receiver := fresh.receiver
  plain := by simp [fresh.sent]
  conserved := by simp [fresh.sent, fresh.reads, fresh.channel]
  results := by simp [fresh.reads, fresh.received]

theorem Invariant.step {start final : Link} {event : Event} (holds : Invariant start)
    (step : Step start event final) : Invariant final := by
  cases step with
  | send plain sends =>
    rw [Socket.sendString_connected holds.sender _ _ _ (Int.natCast_nonneg _), Prod.mk.injEq,
      Prod.mk.injEq] at sends
    obtain ⟨_, rfl, rfl⟩ := sends
    refine ⟨holds.sender, holds.receiver, ?_, ?_, holds.results⟩
    · intro other member
      rcases List.mem_append.mp member with old | new
      · exact holds.plain other old
      · rwa [List.mem_singleton.mp new]
    · simp [Channel.send, ← holds.conserved]
  | deliver count =>
    refine ⟨holds.sender, holds.receiver, holds.plain, ?_, holds.results⟩
    rw [← holds.conserved]
    simp [Channel.deliver]
  | read arrived reads =>
    rw [Socket.readString_connected holds.receiver (by rw [Channel.read, if_pos arrived])
      arrived.1, Prod.mk.injEq, Prod.mk.injEq] at reads
    obtain ⟨rfl, rfl, rfl⟩ := reads
    obtain ⟨_, _, later, waiting⟩ := arrived
    refine ⟨holds.sender, holds.receiver, holds.plain, ?_, by simp [holds.results]⟩
    rw [← holds.conserved]
    simp [← waiting]

theorem Invariant.reachable {start final : Link} {events : List Event} (fresh : Fresh start)
    (run : Trace Step start events final) : Invariant final :=
  run.invariant (fun holds step => holds.step step) fresh.invariant

/-- The bytes of the reads are those the events name. -/
theorem reads_eq {start final : Link} {events : List Event} (fresh : Fresh start)
    (run : Trace Step start events final) (bytes : Text) :
    bytes ∈ final.reads ↔ Event.read bytes ∈ events := by
  have logged := run.log (fun link => link.reads)
    (fun event => match event with
      | .read bytes => [bytes]
      | _ => [])
    (by intro start event final step; cases step <;> simp)
  simp only [logged, fresh.reads, List.nil_append, List.mem_flatMap]
  constructor
  · rintro ⟨event, member, same⟩
    cases event with
    | read other =>
      obtain rfl : bytes = other := by simpa using same
      exact member
    | _ => simp at same
  · intro member
    exact ⟨.read bytes, member, by simp⟩

end Link

/-- Behind the first terminator there is nothing but terminators. -/
def Unmixed (bytes : Text) : Prop := ∀ c ∈ bytes.dropWhile (· != nul), c = nul

instance (bytes : Text) : Decidable (Unmixed bytes) :=
  inferInstanceAs (Decidable (∀ c ∈ bytes.dropWhile (· != nul), c = nul))

/-- The characters of the bytes, without terminators. -/
def characters (bytes : Text) : Text := bytes.filter (· != nul)

theorem characters_eq (bytes : Text) :
    characters bytes = cstr bytes ++ characters (bytes.dropWhile (· != nul)) := by
  have whole : characters (cstr bytes) = cstr bytes :=
    List.filter_eq_self.mpr (fun c member => List.mem_takeWhile_imp (p := (· != nul)) member)
  calc characters bytes
      = characters (cstr bytes ++ bytes.dropWhile (· != nul)) := by
        rw [cstr, List.takeWhile_append_dropWhile]
    _ = characters (cstr bytes) ++ characters (bytes.dropWhile (· != nul)) :=
        List.filter_append ..
    _ = cstr bytes ++ characters (bytes.dropWhile (· != nul)) := by rw [whole]

theorem unmixed_iff (bytes : Text) :
    Unmixed bytes ↔ characters (bytes.dropWhile (· != nul)) = [] := by
  simp [Unmixed, characters]

theorem characters_append (first second : Text) :
    characters (first ++ second) = characters first ++ characters second :=
  List.filter_append ..

theorem characters_flatten (reads : List Text) :
    characters reads.flatten = reads.flatMap characters := by
  induction reads with
  | nil => rfl
  | cons bytes reads ih => rw [List.flatten_cons, characters_append, ih, List.flatMap_cons]

theorem characters_terminated (texts : List Text) (plain : ∀ text ∈ texts, nul ∉ text) :
    characters (texts.flatMap (· ++ [nul])) = texts.flatten := by
  induction texts with
  | nil => rfl
  | cons text texts ih =>
    have whole : characters text = text :=
      List.filter_eq_self.mpr (fun c member => by
        have other : c ≠ nul := by rintro rfl; exact plain text (by simp) member
        simpa using other)
    rw [List.flatMap_cons, characters_append, characters_append, whole,
      ih (fun text member => plain text (List.mem_cons_of_mem _ member)), List.flatten_cons]
    simp [characters]

/-- What `read_string` keeps of each read is never more than its characters,
and all of them only where nothing follows a terminator. -/
theorem flatten_cstr_eq_iff (reads : List Text) :
    (reads.map cstr).flatten = reads.flatMap characters ↔ ∀ bytes ∈ reads, Unmixed bytes := by
  have kept (reads : List Text) : (reads.map cstr).flatten.length ≤
      (reads.flatMap characters).length := by
    induction reads with
    | nil => simp
    | cons bytes reads ih =>
      simp only [List.map_cons, List.flatten_cons, List.flatMap_cons, List.length_append,
        characters_eq bytes]
      omega
  induction reads with
  | nil => simp
  | cons bytes reads ih =>
    rw [List.forall_mem_cons, unmixed_iff, List.map_cons, List.flatten_cons,
      List.flatMap_cons, characters_eq bytes, List.append_assoc, List.append_cancel_left_eq]
    constructor
    · intro same
      have lengths := congrArg List.length same
      rw [List.length_append] at lengths
      have nothing : characters (bytes.dropWhile (· != nul)) = [] := by
        have bound := kept reads
        exact List.eq_nil_of_length_eq_zero (by omega)
      exact ⟨nothing, ih.mp (by simpa [nothing] using same)⟩
    · rintro ⟨nothing, unmixed⟩
      rw [nothing, ih.mpr unmixed, List.nil_append]

namespace Link

/-- Once all bytes are read, the strings received are those sent exactly when
no read returned characters behind a terminator. -/
theorem received_eq_sent_iff {start final : Link} {events : List Event} (fresh : Fresh start)
    (run : Trace Step start events final) (drained : final.channel = {}) :
    final.received.flatten = final.sent.flatten ↔
      ∀ bytes, Event.read bytes ∈ events → Unmixed bytes := by
  have holds := Invariant.reachable fresh run
  have whole : final.reads.flatten = final.sent.flatMap (· ++ [nul]) := by
    simpa [drained] using holds.conserved
  rw [holds.results, ← characters_terminated final.sent holds.plain, ← whole, characters_flatten,
    flatten_cstr_eq_iff]
  simp only [reads_eq fresh run]

def connected : Link where
  sender := { fd := 3, operational := true }
  receiver := { fd := 4, operational := true }

theorem connected_fresh : Fresh connected where
  sender := by simp [Socket.Connected, connected]
  receiver := by simp [Socket.Connected, connected]
  channel := rfl
  sent := rfl
  reads := rfl
  received := rfl

/-- A text sent in one piece and read in two. -/
theorem received_eq_sent_pieces :
    ∃ events final, Trace Step connected events final ∧ final.channel = {} ∧
      final.received = [['h'], ['i']] ∧
      (final.received.flatten = final.sent.flatten ↔
        ∀ bytes, Event.read bytes ∈ events → Unmixed bytes) := by
  have run : Trace Step connected
      [.send ['h', 'i'], .deliver 3, .read ['h'], .read ['i', nul]] _ :=
    .next (.send (by decide) rfl) (.next (.deliver 3) (.next (.read (by decide) rfl)
      (.next (.read (by decide) rfl) (.done _))))
  exact ⟨_, _, run, rfl, rfl, received_eq_sent_iff connected_fresh run rfl⟩

/-- Two texts that one read returns together: the second is lost. -/
theorem received_ne_sent_together :
    ∃ events final, Fresh connected ∧ Trace Step connected events final ∧ final.channel = {} ∧
      final.sent = [['a'], ['b']] ∧ final.received = [['a']] ∧
      final.received.flatten ≠ final.sent.flatten := by
  have run : Trace Step connected
      [.send ['a'], .send ['b'], .deliver 4, .read ['a', nul, 'b', nul]] _ :=
    .next (.send (by decide) rfl) (.next (.send (by decide) rfl) (.next (.deliver 4)
      (.next (.read (by decide) rfl) (.done _))))
  exact ⟨_, _, connected_fresh, run, rfl, rfl, rfl, by decide⟩

end Link

end Ztd
