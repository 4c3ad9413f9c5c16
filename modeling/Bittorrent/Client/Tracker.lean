import Bittorrent.Client.Peers
import Bittorrent.Dump
import Bittorrent.Misc.Checksum
import Bittorrent.Misc.Curl
import Bittorrent.Misc.Url

/-! Asking the tracker for peers. The info hash goes into the query as a string
that ends at its first zero byte (`infoHash_delivered_iff`); in the response the
peers are read only where the decoder made a binary of them (`peers_listed_iff`). -/

namespace Bittorrent.Client

open Lib Lib.Bencode Lib.Chunks Lib.Decimal Lib.OrderedMap Bencode Misc Torrent

section
variable {Handle : Type} (api : UrlApi Handle)

/-- The URL `get_peers` asks for. -/
def announceUrl (sha1 : Bytes → Digest) (metainfo : Metainfo) : Except Exception Handle := do
  let url ← Url.base api api.new metainfo.announce
  let url ← Url.query api url (ascii "peer_id") (ascii "00112233445566778899")
  let url ← Url.query api url (ascii "port") (print 6881)
  let url ← Url.query api url (ascii "uploaded") (print 0)
  let url ← Url.query api url (ascii "downloaded") (print 0)
  let url ← Url.query api url (ascii "left") (printInt metainfo.length)
  let url ← Url.query api url (ascii "compact") (print 1)
  Url.queryBytes api url (ascii "info_hash") (← sha1HashToBytes (← metainfo.hash sha1))

/-- What `get_peers` makes of a response. -/
def peersOfResponse (response : Bytes) : Except Exception (List Bytes) :=
  match decodeBencodedValue response with
  | .throws e => .error e
  | .nullopt => .error (.runtimeError s!"Bad response from server:\n{toText response}")
  | .value (_, result) => do
    if result.contains (ascii "failure reason") then
      let reason ← (← result.value (ascii "failure reason") .null).dump
      .error (.runtimeError s!"Error while fetching peers: {toText reason}")
    else
      let peers ← (← result.value (ascii "peers") (.binary [])).getBinary
      decodePeers peers

/-- `Curl::get`, and the number of a code. -/
structure HttpClient where
  get : Bytes → CurlCode × Bytes
  number : CurlCode → Nat

def getPeers (http : HttpClient) (sha1 : Bytes → Digest) (metainfo : Metainfo) :
    Except Exception (List Bytes) := do
  let url ← announceUrl api sha1 metainfo
  let (code, response) := http.get (← Url.toString api url)
  if code ≠ .ok then
    .error (.runtimeError s!"Error while fetching peers: code {code.name} ({http.number code})")
  else peersOfResponse response

end

/-! ## The response -/

theorem peersOfResponse_value {response : Bytes} {e : EncodedValue} {result : Json}
    (h : decodeBencodedValue response = .value (e, result))
    (hreason : result.contains (ascii "failure reason") = false) :
    peersOfResponse response =
      (result.value (ascii "peers") (.binary []) >>= fun v => v.getBinary >>= decodePeers) := by
  unfold peersOfResponse
  rw [h]
  simp only [hreason, Bool.false_eq_true, if_false]

/-- Only a text that is decoded gives peers. -/
theorem peersOfResponse_ok {response : Bytes} {peers : List Bytes}
    (h : peersOfResponse response = .ok peers) : ∃ d, decodeBencodedValue response = .value d := by
  unfold peersOfResponse at h
  cases hd : decodeBencodedValue response with
  | value d => exact ⟨d, rfl⟩
  | nullopt =>
    rw [hd] at h
    cases h
  | throws e =>
    rw [hd] at h
    cases h

/-- A decoded response without a failure hands over the bytes of its peers,
unless they are UTF-8. -/
theorem peersOfResponse_of_derives {w t P : Bytes} {es : List (Bytes × Value)} {d : DecodedValue}
    (hw : Derives loose w (.value (.dict es))) (hP : lookup (ascii "peers") es = some (.str P))
    (hreason : lookup (ascii "failure reason") es = none)
    (hd : decodeBencodedValue (w ++ t) = .value d) :
    peersOfResponse (w ++ t) = if Utf8.Valid P then .error (.typeError 302) else decodePeers P := by
  obtain rfl := decode_of_derives hw hd
  have hcontains : (denote (.dict es)).contains (ascii "failure reason") = false := by
    rw [denote, Json.contains, lookup_ofList, denoteEntries_eq_map, lookup_map, hreason]
    rfl
  rw [peersOfResponse_value hd hcontains, value_denote_dict hP]
  show ((denoteString P).getBinary >>= decodePeers) = _
  rw [getBinary_denoteString]
  split <;> rfl

/-- The entries come back in order exactly when the response is within the
limits of the decoder and the bytes of the entries are not UTF-8. -/
theorem peers_listed_iff {w t P : Bytes} {es : List (Bytes × Value)} {n : Nat}
    (hw : Derives loose w (.value (.dict es))) (hP : lookup (ascii "peers") es = some (.str P))
    (hreason : lookup (ascii "failure reason") es = none)
    (hn : P.length = peersChunkSizeBytes * n) :
    (∃ peers, peersOfResponse (w ++ t) = .ok peers ∧ peers.length = n ∧
      ∀ i, i < n → peers[i]? = some (decodeIpPortBinary
        ((P.drop (peersChunkSizeBytes * i)).take peersChunkSizeBytes))) ↔
    Derives accepted w (.value (.dict es)) ∧ ¬ Utf8.Valid P := by
  rw [← decodes_iff_accepted hw t]
  constructor
  · intro h
    obtain ⟨peers, hok, _⟩ := h
    obtain ⟨d, hd⟩ := peersOfResponse_ok hok
    refine ⟨⟨d, hd⟩, fun hvalid => ?_⟩
    rw [peersOfResponse_of_derives hw hP hreason hd, if_pos hvalid] at hok
    cases hok
  · intro h
    obtain ⟨⟨d, hd⟩, hvalid⟩ := h
    obtain ⟨hlen, _⟩ := chunk_exact peersChunkSizeBytes_pos hn
    refine ⟨(chunk peersChunkSizeBytes P).map decodeIpPortBinary, ?_, ?_, fun i hi => ?_⟩
    · rw [peersOfResponse_of_derives hw hP hreason hd, if_neg hvalid, decodePeers_ok ⟨n, hn⟩]
    · rw [List.length_map, hlen]
    · rw [List.getElem?_map, chunk_getElem? peersChunkSizeBytes_pos hn hi]
      rfl

/-- A response that lists `peers` and nothing else. -/
def responseWith (peers : Bytes) : Bytes :=
  100 :: (ascii "5:peers" ++ (print peers.length ++ 58 :: peers) ++ [101])

theorem derives_responseWith {peers : Bytes} (h : InInt64 peers.length) :
    Derives accepted (responseWith peers) (.value (.dict [(ascii "peers", .str peers)])) := by
  have hkey : StringText accepted (ascii "5:peers") (ascii "peers") :=
    stringText_print (by decide)
  have hkeys : ∀ k ∈ [ascii "peers"], Utf8.Valid k := by decide
  have hentry := Derives.entry hkey (.str (stringText_print h)) (.noEntries (D := accepted))
  rw [List.append_nil] at hentry
  exact .dict hentry ⟨trivial, hkeys⟩

theorem peers_listed_iff_one :
    (∃ peers, peersOfResponse (responseWith [127, 0, 0, 1, 0x1A, 0xE1] ++ []) = .ok peers ∧
      peers.length = 1 ∧ ∀ i, i < 1 → peers[i]? = some (decodeIpPortBinary
        (([127, 0, 0, 1, 0x1A, 0xE1].drop (peersChunkSizeBytes * i)).take peersChunkSizeBytes))) ↔
    Derives accepted (responseWith [127, 0, 0, 1, 0x1A, 0xE1])
      (.value (.dict [(ascii "peers", .str [127, 0, 0, 1, 0x1A, 0xE1])])) ∧
    ¬ Utf8.Valid [127, 0, 0, 1, 0x1A, 0xE1] :=
  peers_listed_iff ((derives_responseWith (by decide)).mono accepted_le_loose) rfl rfl rfl

/-- The list of an empty swarm is a Json string. -/
theorem peers_throws_on_empty_swarm :
    ¬ ∀ (w P : Bytes) (es : List (Bytes × Value)) (n : Nat),
      Derives loose w (.value (.dict es)) → lookup (ascii "peers") es = some (.str P) →
      lookup (ascii "failure reason") es = none → P.length = peersChunkSizeBytes * n →
      ∃ peers, peersOfResponse w = .ok peers ∧ peers.length = n ∧
        ∀ i, i < n → peers[i]? = some (decodeIpPortBinary
          ((P.drop (peersChunkSizeBytes * i)).take peersChunkSizeBytes)) := by
  intro h
  obtain ⟨peers, hok, _⟩ := h (responseWith []) [] _ 0
    ((derives_responseWith (by decide)).mono accepted_le_loose) rfl rfl rfl
  have hthrows : peersOfResponse (responseWith []) = .error (.typeError 302) := by decide +kernel
  cases hok.symm.trans hthrows

/-! ## The query -/

section
variable {Handle : Type} {api : UrlApi Handle} {query : Handle → Bytes} {encode decode : Bytes → Bytes}

theorem announceUrl_ok {sha1 : Bytes → Digest} {metainfo : Metainfo} {digest : Digest} {url : Handle}
    (hhash : metainfo.hash sha1 = .ok (hex digest.bytes))
    (h : announceUrl api sha1 metainfo = .ok url) :
    ∃ before, Url.queryBytes api before (ascii "info_hash") digest.bytes = .ok url := by
  unfold announceUrl at h
  obtain ⟨_, _, h⟩ := except_bind_eq_ok.mp h
  obtain ⟨_, _, h⟩ := except_bind_eq_ok.mp h
  obtain ⟨_, _, h⟩ := except_bind_eq_ok.mp h
  obtain ⟨_, _, h⟩ := except_bind_eq_ok.mp h
  obtain ⟨_, _, h⟩ := except_bind_eq_ok.mp h
  obtain ⟨_, _, h⟩ := except_bind_eq_ok.mp h
  obtain ⟨before, _, h⟩ := except_bind_eq_ok.mp h
  obtain ⟨hash, hh, h⟩ := except_bind_eq_ok.mp h
  obtain ⟨bytes, hb, h⟩ := except_bind_eq_ok.mp h
  obtain rfl := Except.ok.inj (hhash.symm.trans hh)
  rw [sha1HashToBytes_hex] at hb
  obtain rfl := Except.ok.inj hb
  exact ⟨before, h⟩

/-- The last parameter of the query gives the whole hash back exactly when there
is no zero byte in the hash. -/
theorem infoHash_delivered_iff (happend : api.AppendsEncoded query encode)
    (hdecode : ∀ value, decode (encode value) = value) {sha1 : Bytes → Digest}
    {metainfo : Metainfo} {digest : Digest} {url : Handle}
    (hhash : metainfo.hash sha1 = .ok (hex digest.bytes))
    (hurl : announceUrl api sha1 metainfo = .ok url) :
    (∃ value, lastParameter (query url) = ascii "info_hash=" ++ value ∧
      decode value = digest.bytes) ↔ 0 ∉ digest.bytes := by
  obtain ⟨before, hset⟩ := announceUrl_ok hhash hurl
  have hlast := queryBytes_lastParameter happend (by decide +kernel) hset
  have hsplit : ∀ v : Bytes, ascii "info_hash" ++ 61 :: v = ascii "info_hash=" ++ v := fun v => by
    rw [show ascii "info_hash=" = ascii "info_hash" ++ [61] from rfl, List.append_assoc]
    rfl
  rw [hlast, hsplit, ← cString_eq_self_iff]
  constructor
  · intro h
    obtain ⟨value, heq, hvalue⟩ := h
    rw [← List.append_cancel_left heq, hdecode] at hvalue
    exact hvalue
  · intro h
    refine ⟨_, rfl, ?_⟩
    rw [hdecode, h]

end

/-- A torrent of one piece with the URL of a tracker. -/
def tracked (length : Int) : Metainfo where
  raw := .object [(ascii "announce", .string (ascii "http://t/a")),
    (ascii "info", .object [(ascii "length", .numberInteger length),
      (ascii "piece length", .numberInteger length),
      (ascii "pieces", .binary (List.replicate 20 0xFF))])]
  announce := ascii "http://t/a"
  length := length
  pieceLength := length

def trackedInfo (length : Int) : Bytes :=
  ascii "d6:lengthi" ++ printInt length ++ ascii "e12:piece lengthi" ++ printInt length ++
    ascii "e6:pieces20:" ++ List.replicate 20 0xFF ++ ascii "e"

def trackedUrl (length : Int) (infoHash : Bytes) : Bytes × Bytes :=
  (ascii "http://t/a", ascii "peer_id=00112233445566778899&port=6881&uploaded=0&downloaded=0&left=" ++
    printInt length ++ ascii "&compact=1&info_hash=" ++ infoHash)

theorem hash_tracked_one (sha1 : Bytes → Digest) :
    (tracked 1).hash sha1 = .ok (hex (sha1 (trackedInfo 1)).bytes) := rfl

theorem hash_tracked_zero (sha1 : Bytes → Digest) :
    (tracked 29).hash sha1 = .ok (hex (sha1 (trackedInfo 29)).bytes) := rfl

def digestOne : Digest := ⟨[0xE0, 0x06, 0x0D, 0x80, 0xFF, 0x39, 0xF3, 0x27, 0x82, 0x87,
  0x4C, 0xFE, 0x92, 0xC6, 0x92, 0x76, 0x77, 0xFA, 0x77, 0x48], rfl⟩

/-- This one begins with a zero byte. -/
def digestZero : Digest := ⟨[0x00, 0xB6, 0x81, 0x47, 0x16, 0xA9, 0x3D, 0x2E, 0xE7, 0xBF,
  0x2E, 0xFA, 0x43, 0xB7, 0x4B, 0xE2, 0x28, 0xD0, 0x89, 0x01], rfl⟩

theorem sha1_trackedInfo_one : Misc.sha1 (trackedInfo 1) = digestOne :=
  (Digest.mk.injEq ..).mpr (by decide +kernel)

theorem sha1_trackedInfo_zero : Misc.sha1 (trackedInfo 29) = digestZero :=
  (Digest.mk.injEq ..).mpr (by decide +kernel)

theorem announceUrl_congr {Handle : Type} {api : UrlApi Handle} {sha1 sha1' : Bytes → Digest}
    {metainfo : Metainfo} (h : metainfo.hash sha1 = metainfo.hash sha1') :
    announceUrl api sha1 metainfo = announceUrl api sha1' metainfo := by
  rw [announceUrl, h, announceUrl]

theorem announceUrl_tracked_one : announceUrl textUrl Misc.sha1 (tracked 1) =
    .ok (trackedUrl 1 (percentEncode digestOne.bytes)) := by
  have hhash : (tracked 1).hash Misc.sha1 = (tracked 1).hash fun _ => digestOne := by
    rw [hash_tracked_one, hash_tracked_one, sha1_trackedInfo_one]
  rw [announceUrl_congr hhash]
  decide +kernel

theorem announceUrl_tracked_zero : announceUrl textUrl Misc.sha1 (tracked 29) =
    .ok (trackedUrl 29 []) := by
  have hhash : (tracked 29).hash Misc.sha1 = (tracked 29).hash fun _ => digestZero := by
    rw [hash_tracked_zero, hash_tracked_zero, sha1_trackedInfo_zero]
  rw [announceUrl_congr hhash]
  decide +kernel

theorem infoHash_delivered_iff_one :
    (∃ value, lastParameter (trackedUrl 1 (percentEncode digestOne.bytes)).2 =
        ascii "info_hash=" ++ value ∧ percentDecode value = (Misc.sha1 (trackedInfo 1)).bytes) ↔
      0 ∉ (Misc.sha1 (trackedInfo 1)).bytes :=
  infoHash_delivered_iff textUrl_appendsEncoded percentDecode_encode (hash_tracked_one Misc.sha1)
    announceUrl_tracked_one

/-- A hash that begins with a zero byte leaves an empty parameter. -/
theorem infoHash_lost :
    ¬ ∀ (Handle : Type) (api : UrlApi Handle) (query : Handle → Bytes) (encode decode : Bytes → Bytes)
      (metainfo : Metainfo) (digest : Digest) (url : Handle),
      api.AppendsEncoded query encode → (∀ value, decode (encode value) = value) →
      metainfo.hash Misc.sha1 = .ok (hex digest.bytes) → announceUrl api Misc.sha1 metainfo = .ok url →
      ∃ value, lastParameter (query url) = ascii "info_hash=" ++ value ∧
        decode value = digest.bytes := by
  intro h
  obtain ⟨value, heq, hvalue⟩ := h (Bytes × Bytes) textUrl Prod.snd percentEncode percentDecode
    (tracked 29) (Misc.sha1 (trackedInfo 29)) _ textUrl_appendsEncoded percentDecode_encode
    (hash_tracked_zero Misc.sha1) announceUrl_tracked_zero
  have hlast : lastParameter (trackedUrl 29 []).2 = ascii "info_hash=" ++ [] := by decide +kernel
  rw [List.append_cancel_left (heq.symm.trans hlast)] at hvalue
  have hlen := congrArg List.length hvalue
  rw [(Misc.sha1 (trackedInfo 29)).length_eq] at hlen
  cases hlen

end Bittorrent.Client
