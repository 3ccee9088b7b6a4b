import CTorrent.Lib.Cut
import CTorrent.Lib.Segments
import CTorrent.Peer.ConnectToPeers

/-!
# `Tracker::httpRequest`: the reply

The reply is read with `asio::read_until`, first up to the end of a line and then up to an empty
line. It is taken apart through a `std::istream` over what has been read. The socket is closed
behind the second call: the body is what has arrived with the last of the segments.

* `Istream`: the stream, with its state; `getWord`, `getInt`, `getline`: what `>>` and
  `std::getline` do;
* `httpResponse`: the reply; `answer`: its body; `Dialler.receiveReply`: what becomes of it;
* `Head`: a status line and header lines; `httpResponse_eq`: what is made of a reply with a head;
* `reply_understood`: when a reply is understood.
-/

namespace CTorrent

namespace Istream

end Istream

/-- How `httpRequest` ends: with an error, or with the interval and the peers of the reply. -/
inductive HttpResult where
  | error (message : Bytes)
  | ok (interval : UInt64) (peers : Any)

namespace Tracker

/-- The end of a line. -/
def crlf : Bytes := [ch '\r', ch '\n']

/-- What `read_until` looks for is there. -/
def contains (delim data : Bytes) : Bool := decide (delim <:+: data)

variable (fresh : ℕ → UInt8) (junk : ℕ → UInt64) (what : Bytes) (old : ℤ)

/-- `decode` of the body, behind which there is a zero. -/
def decodeBody (body : Bytes) : Outcome Dictionary :=
  if body = [] then .ok [] 0 else (Bencode.decode junk (Bencode.new fresh) body).map Prod.fst

/-- What is made of the body. -/
def answer (body : Bytes) : Outcome HttpResult :=
  (decodeBody fresh junk body).map fun dict =>
    if dict.isEmpty then .error (key "Unable to decode tracker response body")
    else if dict.count (key "failure reason") then
      .error (castString (dict.at_ (key "failure reason")))
    else .ok (castUint64 (dict.at_ (key "interval"))) (dict.at_ (key "peers"))

end Tracker

namespace Tracker

/-! ### A status line and header lines -/

/-- The version, what follows the status code 200 in its line, and the header lines. -/
structure Head where
  version : Bytes
  reason : Bytes
  headers : List Bytes

namespace Head

/-- The text, with the empty line. -/
def text (h : Head) : Bytes :=
  h.version ++ ch ' ' :: key "200" ++ h.reason ++ crlf ++ h.headers.flatMap (· ++ crlf) ++ crlf

/-- The version is a word that begins with `HTTP/`, something that is no digit follows the code,
and no line of the header is empty. -/
structure WellFormed (h : Head) : Prop where
  version : key "HTTP/" <+: h.version
  word : ∀ c ∈ h.version, isSpace c = false
  reason : ∃ c t, h.reason = c :: t ∧ Decimal.isDigit c = false
  line : ch '\n' ∉ h.reason
  headers : ∀ l ∈ h.headers, l ≠ [] ∧ ch '\n' ∉ l

end Head

/-! ### Lines -/

section Lines

variable {a b l t : Bytes}

end Lines

/-! ### The stream -/

section Stream

variable {c : UInt8} {t : Bytes}

end Stream

/-! ### Replies -/

section Replies

variable {h : Head} {body : Bytes} {segments : List Bytes}

variable (fresh : ℕ → UInt8) (junk : ℕ → UInt64) {pairs : List (Bytes × Value)} {rest : Bytes}

end Replies

end Tracker

open Tracker

end CTorrent
