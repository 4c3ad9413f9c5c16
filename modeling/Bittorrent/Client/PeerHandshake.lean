import Bittorrent.Client.Session
import Bittorrent.Misc.Curl

/-! The handshake without a worker. It looks at the same answer as the one of a
worker, but in a buffer of a fixed size, and takes the peer id out of it without
a look at the info hash (`handshakes_agree_iff`). -/

namespace Bittorrent.Client

open Lib.Exec Misc Net Proto Torrent

def peerHandshake (sha1 : Bytes → Digest) (curl : Curl) (ip port : Bytes) (metainfo : Metainfo) :
    Except Exception Bytes := do
  let msg ← packHandshake
    { infoHash := ← metainfo.hash sha1, peerId := ascii "00112233445566778899" }
  let (code, data) ← tcpTransfer curl ip port msg
  if code ≠ .ok then
    throw (.runtimeError s!"Error while peer handshake: code {code.name} ({code.message})")
  let answer ← unpackHandshake data
  return answer.peerId

/-! ## Reading the answer -/

/-- Where a handshake has its info hash. -/
def hashIn (msg : Bytes) : Bytes :=
  (msg.drop (1 + (msg.headD 0).toNat + PeerHandshakeMsg.reservedSize)).take
    PeerHandshakeMsg.hashSize

/-- The length of all that the first byte asks for. -/
def extent (msg : Bytes) : Nat :=
  1 + (msg.headD 0).toNat + PeerHandshakeMsg.reservedSize + PeerHandshakeMsg.hashSize +
    PeerHandshakeMsg.peerIdSize

theorem unpackHandshake_ok {msg : Bytes} {answer : PeerHandshakeMsg} :
    unpackHandshake msg = .ok answer →
      PeerHandshakeMsg.size ≤ msg.length ∧ extent msg ≤ msg.length ∧
        answer.infoHash = hex (hashIn msg) := by
  intro h
  unfold unpackHandshake at h
  split at h
  · cases h
  · next hl =>
    dsimp only at h
    split at h
    · next hfit =>
      cases h
      exact ⟨Nat.le_of_not_lt hl, hfit, rfl⟩
    · cases h

/-- A message that is long enough is read, or read past its end. -/
theorem unpackHandshake_cases {msg : Bytes} (hl : PeerHandshakeMsg.size ≤ msg.length) :
    (∃ answer, unpackHandshake msg = .ok answer ∧ answer.infoHash = hex (hashIn msg) ∧
      extent msg ≤ msg.length) ∨
    ∃ what, unpackHandshake msg = .error (.undefined what) ∧ msg.length < extent msg := by
  unfold unpackHandshake
  rw [if_neg (Nat.not_lt.mpr hl)]
  dsimp only
  split
  · next hfit => exact Or.inl ⟨_, rfl, rfl, hfit⟩
  · next hfit => exact Or.inr ⟨_, rfl, Nat.lt_of_not_le hfit⟩

/-! ## The two handshakes -/

section
variable {sha1 : Bytes → Digest}

/-- The response is all there, and nothing hinders the operations of a handshake. -/
structure Answering (socket : Socket) (response : Bytes) : Prop where
  isOpen : socket.isOpen = true
  incoming : socket.incoming = response
  written : socket.write.1 = none
  arrived : response.length ≤ socket.write.2.event.arrived

/-- What a response needs to be accepted: its whole length, a header in front
that leaves room for the rest, and the right hash. -/
structure Acceptable (response hash : Bytes) : Prop where
  length : PeerHandshakeMsg.size ≤ response.length
  header : (response.headD 0).toNat < PeerHandshakeMsg.headerSize
  hash : hex (hashIn response) = hash

/-- A header of at most nineteen bytes puts the hash into the first 68 bytes. -/
theorem hashIn_append {response rest : Bytes} (hl : PeerHandshakeMsg.size ≤ response.length)
    (hh : (response.headD 0).toNat < PeerHandshakeMsg.headerSize) :
    hashIn (response ++ rest) = hashIn response := by
  have hhead : (response ++ rest).headD 0 = response.headD 0 := by
    cases response with
    | nil => cases hl
    | cons b response => rfl
  simp only [PeerHandshakeMsg.size, PeerHandshakeMsg.headerSize, PeerHandshakeMsg.reservedSize,
    PeerHandshakeMsg.hashSize, PeerHandshakeMsg.peerIdSize] at hl hh
  unfold hashIn
  rw [hhead, List.drop_append_of_le_length
      (by simp only [PeerHandshakeMsg.reservedSize]; omega),
    List.take_append_of_le_length
      (by simp only [List.length_drop, PeerHandshakeMsg.reservedSize, PeerHandshakeMsg.hashSize]; omega)]

theorem extent_le_size {msg : Bytes} :
    extent msg ≤ PeerHandshakeMsg.size ↔ (msg.headD 0).toNat < PeerHandshakeMsg.headerSize := by
  simp only [extent, PeerHandshakeMsg.size, PeerHandshakeMsg.headerSize,
    PeerHandshakeMsg.reservedSize, PeerHandshakeMsg.hashSize, PeerHandshakeMsg.peerIdSize]
  omega

theorem doHandshake_acceptable {w w' : PieceWorker} {response : Bytes}
    (hw : w.socket.incoming = response) (h : doHandshake sha1 w = .ok () w') :
    ∃ hash, w.metainfo.hash sha1 = .ok hash ∧ Acceptable response hash := by
  obtain ⟨hash, packed, got, answer, hhash, hsize, hread, hanswer, hsame⟩ := doHandshake_ok h
  obtain ⟨hlen, hgot, _⟩ := read_ok hread
  obtain ⟨_, hextent, hinfo⟩ := unpackHandshake_ok hanswer
  have hsplit : response = got ++ ((w.afterSend packed).socket.read packed.length).2.incoming := by
    rw [← hw, hgot]
    exact (w.afterSend packed).socket.read_incoming packed.length
  have hgotsize : got.length = PeerHandshakeMsg.size := hlen.trans hsize
  have hheader := extent_le_size.mp (hgotsize ▸ hextent)
  have hhead : response.headD 0 = got.headD 0 := by
    rw [hsplit]
    cases got with
    | nil => cases hgotsize
    | cons b got => rfl
  refine ⟨hash, hhash, ?_, hhead ▸ hheader, ?_⟩
  · rw [hsplit, List.length_append, hgotsize]
    exact Nat.le_add_right _ _
  · rw [hsplit, hashIn_append (Nat.le_of_eq hgotsize.symm) hheader, ← hinfo, hsame]

theorem doHandshake_of_acceptable {w : PieceWorker} {response hash : Bytes}
    (hw : Answering w.socket response) (hhash : w.metainfo.hash sha1 = .ok hash)
    (ha : Acceptable response hash) : ∃ w', doHandshake sha1 w = .ok () w' := by
  obtain ⟨digest, hdigest⟩ := Metainfo.hash_ok hhash
  obtain ⟨packed, hpacked, hsize⟩ :=
    packHandshake_length digest (show (ascii "00112233445566778899").length = _ from rfl)
  rw [← hdigest] at hpacked
  have harriving : (w.afterSend packed).socket.arriving packed.length =
      response.take PeerHandshakeMsg.size := by
    have hle : PeerHandshakeMsg.size ≤ w.socket.write.2.event.arrived :=
      Nat.le_trans ha.length hw.arrived
    show (if w.socket.isOpen then w.socket.incoming.take
      (min packed.length w.socket.write.2.event.arrived) else []) = _
    rw [if_pos hw.isOpen, hw.incoming, hsize, Nat.min_eq_left hle]
  have hgotsize : (response.take PeerHandshakeMsg.size).length = PeerHandshakeMsg.size :=
    List.length_take_of_le ha.length
  have hopen : (w.afterSend packed).socket.isOpen = true := hw.isOpen
  have hread : ((w.afterSend packed).socket.read packed.length).1 =
      .ok (response.take PeerHandshakeMsg.size) := by
    rw [Socket.read_of_arriving hopen (by rw [harriving, hgotsize, hsize]), harriving]
  have hhead : (response.take PeerHandshakeMsg.size).headD 0 = response.headD 0 := by
    cases response <;> rfl
  have hin : hashIn (response.take PeerHandshakeMsg.size) = hashIn response := by
    have := @hashIn_append _ (response.drop PeerHandshakeMsg.size)
      (Nat.le_of_eq hgotsize.symm) (by rw [hhead]; exact ha.header)
    rw [List.take_append_drop] at this
    exact this.symm
  rcases unpackHandshake_cases (Nat.le_of_eq hgotsize.symm) with
    ⟨answer, hanswer, hinfo, _⟩ | ⟨_, _, hlt⟩
  · have hinfoHash : ∀ v : PieceWorker, v.metainfo = w.metainfo → infoHash sha1 v = .ok hash v := by
      intro v hv
      refine (get_bind _ v).trans ?_
      rw [hv, hhash]
      rfl
    have hexchange : exchange .handshake packed packed.length w =
        .ok (.ok (response.take PeerHandshakeMsg.size))
          ((w.afterSend packed).afterRead .handshake packed.length) := by
      rw [exchange_of_written hw.isOpen hw.written, read_eq, hread]
    refine ⟨(w.afterSend packed).afterRead .handshake packed.length, ?_⟩
    refine (get_bind _ w).trans ?_
    rw [bind_of_ok (throwIf_of_not (by simp [hw.isOpen]) _ w), bind_of_ok (hinfoHash w rfl), hpacked,
      bind_of_ok (orThrow_of_ok _ _ _), bind_of_ok hexchange, bind_of_ok (orThrow_of_ok _ _ _),
      hanswer, bind_of_ok (orThrow_of_ok _ _ _),
      bind_of_ok (hinfoHash ((w.afterSend packed).afterRead .handshake packed.length) rfl)]
    exact throwIf_of_not (by rw [hinfo, hin, ha.hash]; exact not_not.mpr rfl) _ _
  · rw [hgotsize] at hlt
    exact absurd (extent_le_size.mpr (by rw [hhead]; exact ha.header)) (Nat.not_le.mpr hlt)

/-- Without a worker nothing of the answer is checked. -/
theorem peerHandshake_delivers {curl : Curl} {response hash : Bytes} {metainfo : Metainfo}
    (hcurl : curl.Delivers response) (hl : response.length ≤ 256) (ip port : Bytes)
    (hhash : metainfo.hash sha1 = .ok hash) :
    (∃ peerId, peerHandshake sha1 curl ip port metainfo = .ok peerId) ∨
      ∃ what, peerHandshake sha1 curl ip port metainfo = .error (.undefined what) ∧
        PeerHandshakeMsg.headerSize ≤ (response.headD 0).toNat := by
  obtain ⟨digest, hdigest⟩ := Metainfo.hash_ok hhash
  obtain ⟨packed, hpacked, _⟩ :=
    packHandshake_length digest (show (ascii "00112233445566778899").length = _ from rfl)
  rw [← hdigest] at hpacked
  have hsize : PeerHandshakeMsg.size ≤
      (response ++ List.replicate (256 - response.length) 0).length := by
    rw [List.length_append, List.length_replicate, Nat.add_sub_cancel' hl]
    decide
  unfold peerHandshake
  rw [hhash]
  simp only [bind, Except.bind, hpacked, tcpTransfer_delivers hcurl hl]
  rcases unpackHandshake_cases hsize with ⟨answer, hanswer, _⟩ | ⟨what, hanswer, hlt⟩
  · rw [hanswer]
    exact Or.inl ⟨_, rfl⟩
  · rw [hanswer]
    have hhead : (response ++ List.replicate (256 - response.length) 0).headD 0 =
        response.headD 0 := by
      cases response <;> rfl
    refine Or.inr ⟨what, rfl, Nat.le_of_not_lt fun hh => ?_⟩
    rw [← hhead] at hh
    exact absurd (Nat.le_trans (extent_le_size.mpr hh) hsize) (Nat.not_le.mpr hlt)

/-- On one response of a peer: the handshake without a worker returns only when
that of a worker accepts, and throws otherwise, if and only if there is nothing
to refuse (or no info hash to ask for). -/
theorem handshakes_agree_iff {curl : Curl} {ip port response : Bytes} {w : PieceWorker}
    (hcurl : curl.Delivers response) (hl : response.length ≤ 256)
    (hw : Answering w.socket response) :
    ((∃ peerId, peerHandshake sha1 curl ip port w.metainfo = .ok peerId ∧
        ∃ w', doHandshake sha1 w = .ok () w') ∨
      ∃ e, peerHandshake sha1 curl ip port w.metainfo = .error e ∧ e.caught = true) ↔
    ∀ hash, w.metainfo.hash sha1 = .ok hash → Acceptable response hash := by
  constructor
  · rintro (⟨_, _, w', hx⟩ | ⟨e, he, hcaught⟩) hash hhash
    · obtain ⟨hash', hhash', ha⟩ := doHandshake_acceptable hw.incoming hx
      obtain rfl := Except.ok.inj (hhash.symm.trans hhash')
      exact ha
    · rcases peerHandshake_delivers hcurl hl ip port hhash with ⟨peerId, hok⟩ | ⟨what, hundef, _⟩
      · rw [hok] at he
        cases he
      · rw [hundef] at he
        cases he
        cases hcaught
  · intro hall
    cases hhash : w.metainfo.hash sha1 with
    | error e =>
      refine Or.inr ⟨e, ?_, Metainfo.hash_error hhash⟩
      unfold peerHandshake
      rw [hhash]
      rfl
    | ok hash =>
      have ha := hall hash hhash
      obtain ⟨w', hx⟩ := doHandshake_of_acceptable hw hhash ha
      rcases peerHandshake_delivers hcurl hl ip port hhash with ⟨peerId, hok⟩ | ⟨_, _, hheader⟩
      · exact Or.inl ⟨peerId, hok, w', hx⟩
      · exact absurd ha.header (Nat.not_lt.mpr hheader)

end

/-! ## A peer with a handshake for some torrent -/

def handshakeOf (infoHash : Bytes) : Bytes :=
  19 :: ascii "BitTorrent protocol" ++ List.replicate 8 0 ++ infoHash ++ List.replicate 20 48

/-- The first call is not ready. -/
def answeringCurl (response : Bytes) : Curl where
  perform _ := .ok
  send _ := .ok
  recv := [(.again, []), (.ok, response)]

private theorem answeringCurl_delivers (response : Bytes) : (answeringCurl response).Delivers response :=
  ⟨fun _ => rfl, fun _ => rfl, 1, [], rfl⟩

theorem handshakes_agree_iff_same :
    ((∃ peerId, peerHandshake lengthDigest (answeringCurl (handshakeOf (List.replicate 20 62)))
          (ascii "127.0.0.1") (ascii "6881") onePiece = .ok peerId ∧
        ∃ w', doHandshake lengthDigest (openWorker (handshakeOf (List.replicate 20 62))) =
          .ok () w') ∨
      ∃ e, peerHandshake lengthDigest (answeringCurl (handshakeOf (List.replicate 20 62)))
        (ascii "127.0.0.1") (ascii "6881") onePiece = .error e ∧ e.caught = true) ↔
    ∀ hash, onePiece.hash lengthDigest = .ok hash →
      Acceptable (handshakeOf (List.replicate 20 62)) hash :=
  handshakes_agree_iff (w := openWorker (handshakeOf (List.replicate 20 62)))
    (answeringCurl_delivers _) (by decide) ⟨rfl, rfl, rfl, by decide +kernel⟩

/-- A handshake for another torrent, and its peer id is returned. -/
theorem peerHandshake_takes_any_hash :
    ¬ ∀ (sha1 : Bytes → Digest) (curl : Curl) (ip port response : Bytes) (w : PieceWorker),
      curl.Delivers response → response.length ≤ 256 → Answering w.socket response →
      ((∃ peerId, peerHandshake sha1 curl ip port w.metainfo = .ok peerId ∧
          ∃ w', doHandshake sha1 w = .ok () w') ∨
        ∃ e, peerHandshake sha1 curl ip port w.metainfo = .error e ∧ e.caught = true) := by
  intro hall
  have hhash : onePiece.hash lengthDigest = .ok (hex (List.replicate 20 62)) := by decide +kernel
  have hok : peerHandshake lengthDigest (answeringCurl (handshakeOf (List.replicate 20 63)))
      (ascii "127.0.0.1") (ascii "6881") onePiece = .ok (hex (List.replicate 20 48)) := by
    decide +kernel
  rcases hall lengthDigest (answeringCurl (handshakeOf (List.replicate 20 63))) (ascii "127.0.0.1")
      (ascii "6881") _ (openWorker (handshakeOf (List.replicate 20 63)))
      (answeringCurl_delivers _) (by decide) ⟨rfl, rfl, rfl, by decide +kernel⟩ with
    ⟨_, _, w', hx⟩ | ⟨e, he, _⟩
  · obtain ⟨hash, hhash', ha⟩ := doHandshake_acceptable rfl hx
    obtain rfl := Except.ok.inj (hhash.symm.trans hhash')
    exact absurd ha.hash (by decide +kernel)
  · cases hok.symm.trans he

end Bittorrent.Client
