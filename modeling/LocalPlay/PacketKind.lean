/-! The kinds of packet and their numbers on the wire. A number names at most one kind. -/
namespace LocalPlay

/-- What a packet is for. -/
inductive PacketKind where
  | handshake
  | handshakeAck
  | data
  | ack
  | heartbeat
  | disconnect
  /-- One piece of a message that is too long for one packet. -/
  | fragment
  | error
  deriving DecidableEq

namespace PacketKind

/-- The number of a kind on the wire. -/
def code : PacketKind → UInt16
  | handshake => 1
  | handshakeAck => 2
  | data => 3
  | ack => 4
  | heartbeat => 5
  | disconnect => 6
  | fragment => 7
  | error => 8

/-- The kind with a given number, if there is one. -/
def ofCode? (n : UInt16) : Option PacketKind :=
  [handshake, handshakeAck, data, ack, heartbeat, disconnect, fragment, error].find? (·.code = n)

/-- Session traffic, as opposed to the payload of an application. -/
def isControl : PacketKind → Bool
  | data | fragment => false
  | _ => true

/-- The name of a kind, as shown in messages. -/
def name : PacketKind → String
  | handshake => "Handshake"
  | handshakeAck => "HandshakeAck"
  | data => "Data"
  | ack => "Ack"
  | heartbeat => "Heartbeat"
  | disconnect => "Disconnect"
  | fragment => "Fragment"
  | error => "Error"

@[simp] theorem ofCode?_code (kind : PacketKind) : ofCode? kind.code = some kind := by
  cases kind <;> rfl

/-- Reading a number gives exactly the kind that has it. -/
theorem ofCode?_eq_some_iff {n : UInt16} {kind : PacketKind} :
    ofCode? n = some kind ↔ n = kind.code := by
  constructor
  · intro h
    have hk := List.find?_some h
    simpa using (of_decide_eq_true hk).symm
  · rintro rfl
    exact ofCode?_code kind

theorem code_inj {a b : PacketKind} : a.code = b.code ↔ a = b := by
  constructor
  · intro h
    have hs : some a = some b := by rw [← ofCode?_code a, ← ofCode?_code b, h]
    exact Option.some.inj hs
  · rintro rfl
    rfl

/-- Of the kinds that are sent, data alone is not control traffic. -/
theorem eq_data {kind : PacketKind} (hf : kind ≠ .fragment) (hc : ¬ kind.isControl = true) : kind = .data := by
  cases kind <;> simp_all [isControl]

end PacketKind
end LocalPlay
