import CTorrent.Util.Serializer

/-!
# The messages between peers

What the senders of `peer.cpp` write: a length of four bytes, the type, the payload. The numbers
are 32-bit words in big-endian order.

* `Message`: one message of each sender; `Message.type`, `Message.payload`, `Message.bytes`.
-/

namespace CTorrent

/-- What the senders write on a connection. -/
inductive Message where
  | keepAlive
  | choke
  | unchoke
  | interested
  | have_ (index : UInt32)
  | bitfield (bits : Bytes)
  | request (index begin length : UInt32)
  | pieceBlock (index begin : UInt32) (block : Bytes)
  | cancel (index begin length : UInt32)
  deriving DecidableEq

namespace Message

/-- The message type; a keep-alive has none. -/
def type : Message → Option UInt8
  | keepAlive => none
  | choke => some 0
  | unchoke => some 1
  | interested => some 2
  | have_ _ => some 4
  | bitfield _ => some 5
  | request _ _ _ => some 6
  | pieceBlock _ _ _ => some 7
  | cancel _ _ _ => some 8

/-- What follows the type. -/
def payload : Message → Bytes
  | have_ index => writeBE32 index
  | bitfield bits => bits
  | request index begin length => writeBE32 index ++ writeBE32 begin ++ writeBE32 length
  | pieceBlock index begin block => writeBE32 index ++ writeBE32 begin ++ block
  | cancel index begin length => writeBE32 index ++ writeBE32 begin ++ writeBE32 length
  | _ => []

/-- The bytes on the connection. -/
def bytes (msg : Message) : Bytes :=
  match msg.type with
  | none => [0, 0, 0, 0]
  | some t => writeBE32 (UInt32.ofNat (1 + msg.payload.length)) ++ t :: msg.payload

end Message

end CTorrent
