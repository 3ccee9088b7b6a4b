import CTorrent.Lib.Cut
import CTorrent.Peer.TrackerQuery
import CTorrent.Tracker.QueryTrackers
import CTorrent.Util.UrlEncode

/-!
# `Tracker::httpRequest`: the query

What `httpRequest` writes to the tracker. The info hash stands in the handshake.

* `httpQuery`: the request;
* `eq_of_httpQuery_eq`: it tells the info hash and the peer id;
* `urlencode_roundTrip`: what `urlencode` writes, and that it can be read back.
-/

namespace CTorrent

/-- What stands for the event in the request. -/
def TrackerEvent.parameter : TrackerEvent → Bytes
  | .none => []
  | .completed => key "event=completed&"
  | .started => key "event=started&"
  | .stopped => key "event=stopped&"

namespace Tracker

/-- The request. -/
def httpQuery (tracker : Tracker) (handshake peerId : Bytes) (r : TrackerQuery) : Bytes :=
  key "GET /announce?" ++ r.event.parameter ++ key "info_hash=" ++
    urlencode (Splice.region handshake 28 20) ++ key "&port=" ++
    Decimal.text tracker.tport.toNat ++ key "&compact=1&key=1337T0RRENT" ++ key "&peer_id=" ++
    urlencode (peerId.take 20) ++ key "&downloaded=" ++ Decimal.text r.downloaded ++
    key "&uploaded=" ++ Decimal.text r.uploaded ++ key "&left=" ++ Decimal.text r.remaining ++
    key " HTTP/1.0\r\n" ++ key "Host: " ++ tracker.host ++ key "\r\n" ++ key "\r\n"

/-- Each event is told from the others by what it begins with. -/
theorem parameter_append_inj (e e' : TrackerEvent) {s s' : Bytes}
    (h : e.parameter ++ (key "info_hash=" ++ s) = e'.parameter ++ (key "info_hash=" ++ s')) :
    s = s' := by
  cases e <;> cases e' <;> simp +decide [TrackerEvent.parameter, key] at h
  all_goals exact h

theorem notMem_urlencode (v : Bytes) : ch '&' ∉ urlencode v := by
  rw [urlencode_eq]
  exact (Percent.encoded_encode v).notMem (by decide) (by decide) (by decide)

theorem notMem_text (n : ℕ) : ch '&' ∉ Decimal.text n :=
  Bencode.not_mem_text (by decide)

/-- The request tells the info hash and the peer id. -/
theorem eq_of_httpQuery_eq {tracker tracker' : Tracker}
    {handshake handshake' peerId peerId' : Bytes}
    {r r' : TrackerQuery}
    (h : tracker.httpQuery handshake peerId r = tracker'.httpQuery handshake' peerId' r') :
    Splice.region handshake 28 20 = Splice.region handshake' 28 20 ∧
      peerId.take 20 = peerId'.take 20 := by
  unfold httpQuery at h
  simp only [List.append_assoc] at h
  rw [List.append_cancel_left_eq] at h
  have hhash := parameter_append_inj r.event r'.event h
  have hport : key "&port=" = ch '&' :: key "port=" := by decide +kernel
  have hcompact : key "&compact=1&key=1337T0RRENT" =
      ch '&' :: key "compact=1&key=1337T0RRENT" := by decide +kernel
  have hdownloaded : key "&downloaded=" = ch '&' :: key "downloaded=" := by decide +kernel
  simp only [hport, hcompact, hdownloaded, List.cons_append] at hhash
  obtain ⟨hinfo, hrest⟩ := Cut.eq_of_append_cons_eq (notMem_urlencode _) (notMem_urlencode _) hhash
  obtain ⟨-, hrest⟩ := Cut.eq_of_append_cons_eq (notMem_text _) (notMem_text _)
    (List.append_cancel_left hrest)
  obtain ⟨hpeer, -⟩ := Cut.eq_of_append_cons_eq (notMem_urlencode _) (notMem_urlencode _)
    (List.append_cancel_left (List.append_cancel_left hrest))
  exact ⟨urlencode_injective hinfo, urlencode_injective hpeer⟩

/-- **`urlencode` can be undone.** What it writes consists of unreserved bytes and well-formed
escapes, and percent-decoding gives the text back; so no two texts are written alike, and the
request tells the info hash and the peer id. -/
theorem urlencode_roundTrip :
    (∀ v, Percent.Encoded (urlencode v) ∧ Percent.decode (urlencode v) = some v) ∧
      Function.Injective urlencode ∧
      ∀ (tracker tracker' : Tracker) (handshake handshake' peerId peerId' : Bytes)
        (r r' : TrackerQuery),
        tracker.httpQuery handshake peerId r = tracker'.httpQuery handshake' peerId' r' →
        Splice.region handshake 28 20 = Splice.region handshake' 28 20 ∧
          peerId.take 20 = peerId'.take 20 := by
  refine ⟨fun v => ?_, urlencode_injective, fun _ _ _ _ _ _ _ _ => eq_of_httpQuery_eq⟩
  rw [urlencode_eq]
  exact ⟨Percent.encoded_encode v, Percent.decode_encode_text v⟩

end Tracker

end CTorrent
