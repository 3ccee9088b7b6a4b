import CTorrent.Bencode.Value
import CTorrent.Lib.Cut

/-!
# `util/auxiliar.cpp`: `parseUrl`

The iterators of `parseUrl` are the parts of the text from them on; the end is the empty text. The
end of the host is looked for with a colon first, anywhere behind the protocol, and with a slash
only if there is no colon at all.

* `search`, `tolower`, `parseUrl`;
* `Url`: the parts of a URL, its text and what `parseUrl` should make of it;
* `parseUrl_text_iff`: when it does.
-/

namespace CTorrent

/-- `tolower` in the C locale. -/
def tolower (c : UInt8) : UInt8 := if 65 ≤ c.toNat ∧ c.toNat ≤ 90 then c + 32 else c

/-- `std::search`: the position of the first occurrence of `pattern`, which is not empty. -/
def search (pattern s : Bytes) : Option ℕ := s.tails.findIdx? pattern.isPrefixOf

/-- `UrlData`. -/
structure UrlData where
  protocol : Bytes
  hostname : Bytes
  servname : Bytes
  deriving DecidableEq

/-- `parseUrl`. -/
def parseUrl (str : Bytes) : UrlData :=
  let protocolEnd := [ch ':', ch '/', ch '/']
  match search protocolEnd str with
  | none => ⟨[], [], []⟩
  | some n =>
      let protocol := (str.take n).map tolower
      -- eat "://"
      let rest := str.drop (n + protocolEnd.length)
      let hostEnd := if ch ':' ∈ rest then ch ':' else ch '/'
      let host := (rest.takeWhile (· ≠ hostEnd)).map tolower
      match (rest.dropWhile (· ≠ hostEnd)).dropWhile (· ≠ ch ':') with
      | [] => ⟨protocol, host, protocol⟩
      | _ :: port => ⟨protocol, host, port.takeWhile (· ≠ ch '/')⟩

/-- A URL: a protocol, a host, a port if one is given, and the rest from the slash on. -/
structure Url where
  protocol : Bytes
  host : Bytes
  port : Option Bytes
  rest : Bytes
  not_mem_protocol : ch ':' ∉ protocol ∧ ch '/' ∉ protocol
  host_ne_nil : host ≠ []
  not_mem_host : ch ':' ∉ host ∧ ch '/' ∉ host
  isDigit_port : ∀ d, port = some d → ∀ c ∈ d, Decimal.isDigit c = true
  rest_eq : rest = [] ∨ rest.head? = some (ch '/')

namespace Url

/-- The port as it stands in the text. -/
def portText (u : Url) : Bytes :=
  match u.port with
  | none => []
  | some d => ch ':' :: d

/-- The text of a URL. -/
def text (u : Url) : Bytes :=
  u.protocol ++ [ch ':', ch '/', ch '/'] ++ (u.host ++ u.portText ++ u.rest)

/-- The parts of a URL; without a port the protocol stands for it. -/
def data (u : Url) : UrlData :=
  ⟨u.protocol.map tolower, u.host.map tolower, u.port.getD (u.protocol.map tolower)⟩

end Url

/-! ### Searching -/

/-- A pattern is found behind a text without its first byte. -/
theorem search_append {c : UInt8} {p : Bytes} (hp : c ∉ p) (pattern t : Bytes) :
    search (c :: pattern) (p ++ (c :: pattern) ++ t) = some p.length := by
  induction p with
  | nil =>
    have hprefix : (c :: pattern).isPrefixOf (c :: (pattern ++ t)) = true := by
      rw [List.isPrefixOf_iff_prefix]
      exact List.prefix_append (c :: pattern) t
    rw [search, List.nil_append, List.cons_append, List.tails_cons, List.findIdx?_cons, hprefix]
    rfl
  | cons b p ih =>
    rw [List.mem_cons, not_or] at hp
    have hprefix : (c :: pattern).isPrefixOf (b :: (p ++ (c :: pattern) ++ t)) = false := by
      rw [List.isPrefixOf, beq_false_of_ne hp.1, Bool.false_and]
    have ih := ih hp.2
    rw [search] at ih ⊢
    rw [List.cons_append, List.cons_append, List.tails_cons, List.findIdx?_cons, hprefix, ih]
    rfl

namespace Url

variable (u : Url)

/-- What is cut off behind the protocol. -/
theorem parseUrl_text :
    parseUrl u.text =
      let rest := u.host ++ u.portText ++ u.rest
      let hostEnd := if ch ':' ∈ rest then ch ':' else ch '/'
      let host := (rest.takeWhile (· ≠ hostEnd)).map tolower
      match (rest.dropWhile (· ≠ hostEnd)).dropWhile (· ≠ ch ':') with
      | [] => ⟨u.protocol.map tolower, host, u.protocol.map tolower⟩
      | _ :: port => ⟨u.protocol.map tolower, host, port.takeWhile (· ≠ ch '/')⟩ := by
  have hdrop : u.text.drop (u.protocol.length + [ch ':', ch '/', ch '/'].length) =
      u.host ++ u.portText ++ u.rest := by
    rw [text, ← List.length_append, List.drop_left]
  have htake : u.text.take u.protocol.length = u.protocol := by
    rw [text, List.append_assoc, List.take_left]
  rw [parseUrl, text, search_append u.not_mem_protocol.1, ← text]
  simp only [hdrop, htake]

/-- The rest begins where a port or a host ends. -/
theorem takeWhile_rest {s : Bytes} (hs : ch '/' ∉ s) :
    (s ++ u.rest).takeWhile (· ≠ ch '/') = s := by
  rcases u.rest_eq with hrest | hrest
  · rw [hrest, List.append_nil, Cut.takeWhile_ne_of_notMem hs]
  · obtain ⟨r, hr⟩ := List.head?_eq_some_iff.1 hrest
    rw [hr, Cut.takeWhile_ne_append_cons hs]

/-- With a port, the first colon behind the protocol is the one before it. -/
theorem parseUrl_text_port {d : Bytes} (hport : u.port = some d) : parseUrl u.text = u.data := by
  have hslash : ch '/' ∉ d := by
    intro hmem
    exact absurd (u.isDigit_port d hport _ hmem) (by decide)
  have hrest : u.host ++ u.portText ++ u.rest = u.host ++ ch ':' :: (d ++ u.rest) := by
    rw [portText, hport, List.append_assoc, List.cons_append]
  have hmem : ch ':' ∈ u.host ++ ch ':' :: (d ++ u.rest) := by simp
  rw [parseUrl_text, hrest]
  simp only [if_pos hmem, Cut.takeWhile_ne_append_cons u.not_mem_host.1,
    Cut.dropWhile_ne_append_cons u.not_mem_host.1]
  have hself : (ch ':' :: (d ++ u.rest)).dropWhile (· ≠ ch ':') = ch ':' :: (d ++ u.rest) :=
    Cut.dropWhile_ne_append_cons List.not_mem_nil _
  rw [hself, data, hport]
  simp only [u.takeWhile_rest hslash, Option.getD_some]

/-- Without a colon behind the protocol, the host ends at the first slash. -/
theorem parseUrl_text_noColon (hport : u.port = none) (hcolon : ch ':' ∉ u.rest) :
    parseUrl u.text = u.data := by
  have hrest : u.host ++ u.portText ++ u.rest = u.host ++ u.rest := by
    rw [portText, hport, List.append_nil]
  have hmem : ch ':' ∉ u.host ++ u.rest := by
    rw [List.mem_append, not_or]
    exact ⟨u.not_mem_host.1, hcolon⟩
  have hnone : ((u.host ++ u.rest).dropWhile (· ≠ ch '/')).dropWhile (· ≠ ch ':') = [] :=
    Cut.dropWhile_ne_of_notMem fun h => hmem ((List.dropWhile_suffix _).subset h)
  rw [parseUrl_text, hrest]
  simp only [if_neg hmem, hnone, u.takeWhile_rest u.not_mem_host.2]
  rw [data, hport, Option.getD_none]

/-- A colon in the rest is taken for the end of the host. -/
theorem hostname_parseUrl_text (hport : u.port = none) (hcolon : ch ':' ∈ u.rest) :
    (parseUrl u.text).hostname = (u.host ++ u.rest.takeWhile (· ≠ ch ':')).map tolower := by
  have hrest : u.host ++ u.portText ++ u.rest = u.host ++ u.rest := by
    rw [portText, hport, List.append_nil]
  have hmem : ch ':' ∈ u.host ++ u.rest := List.mem_append_right _ hcolon
  rw [parseUrl_text, hrest]
  simp only [if_pos hmem, Cut.takeWhile_ne_append u.not_mem_host.1]
  split <;> rfl

/-- **Parsing inverts formatting**, if and only if a port is given or there is no colon in the
rest. -/
theorem parseUrl_text_iff : parseUrl u.text = u.data ↔ u.port ≠ none ∨ ch ':' ∉ u.rest := by
  cases hport : u.port with
  | some d => simp [u.parseUrl_text_port hport]
  | none =>
    by_cases hcolon : ch ':' ∈ u.rest
    · refine iff_of_false (fun heq => ?_) (by simp [hcolon])
      -- the slash that the rest begins with belongs to the host then
      have hslash : u.rest.head? = some (ch '/') := by
        refine u.rest_eq.resolve_left fun hnil => ?_
        rw [hnil] at hcolon
        cases hcolon
      obtain ⟨r, hr⟩ := List.head?_eq_some_iff.1 hslash
      have hlen := congrArg (fun url => url.hostname.length) heq
      simp only [u.hostname_parseUrl_text hport hcolon, data, List.length_map, List.length_append,
        hr] at hlen
      rw [List.takeWhile_cons_of_pos (by decide), List.length_cons] at hlen
      omega
    · simp [u.parseUrl_text_noColon hport hcolon, hcolon]

/-- `http://h/a:b`. -/
def colonInPath : Url where
  protocol := [ch 'h', ch 't', ch 't', ch 'p']
  host := [ch 'h']
  port := none
  rest := [ch '/', ch 'a', ch ':', ch 'b']
  not_mem_protocol := by decide
  host_ne_nil := by decide
  not_mem_host := by decide
  isDigit_port := by simp
  rest_eq := by decide

/-- The path is cut at its colon: the host is `h/a`, and the port `b`. -/
theorem parseUrl_colonInPath :
    parseUrl colonInPath.text = ⟨colonInPath.protocol, [ch 'h', ch '/', ch 'a'], [ch 'b']⟩ ∧
      parseUrl colonInPath.text ≠ colonInPath.data := by
  decide +kernel

end Url

end CTorrent
