import Bittorrent.Proto.Deserialize
import Bittorrent.Proto.Serialize

/-! The handshake. What the program packs it unpacks again
(`unpackHandshake_packHandshake`). In a message from a peer the first byte says
where the hash and the id are, and only the length that this byte would ask for
in a message of the program is checked (`unpackHandshake_inside_iff`). -/

namespace Bittorrent.Proto

open Misc

structure HandshakeSpans where
  header : Span
  hash : Span
  peerId : Span

/-- Each span begins behind the one before. -/
def handshakeSpans (msg : Bytes) : HandshakeSpans :=
  let header : Span := ⟨msg, 1, (msg.headD 0).toNat⟩
  let hash : Span :=
    ⟨msg, header.first + header.size + PeerHandshakeMsg.reservedSize, PeerHandshakeMsg.hashSize⟩
  { header, hash, peerId := ⟨msg, hash.first + hash.size, PeerHandshakeMsg.peerIdSize⟩ }

/-- Every access through the spans stays in the message. -/
structure HandshakeSpans.Inside (spans : HandshakeSpans) : Prop where
  header : spans.header.Inside
  hash : spans.hash.Inside
  peerId : spans.peerId.Inside

/-- The id is the last of the three. -/
theorem handshakeSpans_inside_iff (msg : Bytes) :
    (handshakeSpans msg).Inside ↔ 49 + (msg.headD 0).toNat ≤ msg.length := by
  have hlast : (handshakeSpans msg).peerId.Inside ↔ 49 + (msg.headD 0).toNat ≤ msg.length := by
    simp only [handshakeSpans, Span.Inside, PeerHandshakeMsg.reservedSize,
      PeerHandshakeMsg.hashSize, PeerHandshakeMsg.peerIdSize]
    omega
  constructor
  · intro h
    exact hlast.mp h.peerId
  · intro h
    refine ⟨?_, ?_, hlast.mpr h⟩
    · show 1 + (msg.headD 0).toNat ≤ msg.length
      omega
    · show 1 + (msg.headD 0).toNat + 8 + 20 ≤ msg.length
      omega

/-- A message that is long enough is read through the spans, wherever they are. -/
theorem unpackHandshake_spans {msg : Bytes} (hl : PeerHandshakeMsg.size ≤ msg.length) :
    ((handshakeSpans msg).Inside → unpackHandshake msg = .ok
      { infoHash := hex (handshakeSpans msg).hash.bytes,
        peerId := hex (handshakeSpans msg).peerId.bytes }) ∧
    (¬ (handshakeSpans msg).Inside →
      unpackHandshake msg = .error (.undefined "span past the end of the message")) := by
  have hfit : (handshakeSpans msg).Inside ↔ 1 + (msg.headD 0).toNat +
      PeerHandshakeMsg.reservedSize + PeerHandshakeMsg.hashSize + PeerHandshakeMsg.peerIdSize ≤
        msg.length := by
    rw [handshakeSpans_inside_iff]
    simp only [PeerHandshakeMsg.reservedSize, PeerHandshakeMsg.hashSize, PeerHandshakeMsg.peerIdSize]
    omega
  unfold unpackHandshake
  rw [if_neg (Nat.not_lt.mpr hl)]
  constructor
  · intro h
    exact if_pos (hfit.mp h)
  · intro h
    exact if_neg (mt hfit.mpr h)

/-! ## Round trip -/

/-- What stands in front of the hash in a message of the program. -/
def packedFront : Bytes :=
  UInt8.ofNat 19 :: (ascii "BitTorrent protocol" ++ List.replicate PeerHandshakeMsg.reservedSize 0)

theorem packHandshake_hex (infoHash peerId : Bytes) :
    packHandshake { infoHash := hex infoHash, peerId := peerId } =
      .ok (packedFront ++ (infoHash ++ peerId)) := by
  unfold packHandshake
  rw [sha1HashToBytes_hex]
  show Except.ok (packedFront ++ infoHash ++ peerId) = _
  rw [List.append_assoc]

/-- The spans of a message of the program are its hash and its id. -/
theorem handshakeSpans_packed {infoHash peerId : Bytes}
    (hi : infoHash.length = PeerHandshakeMsg.hashSize)
    (hp : peerId.length = PeerHandshakeMsg.peerIdSize) (rest : Bytes) :
    (handshakeSpans (packedFront ++ (infoHash ++ peerId) ++ rest)).hash.bytes = infoHash ∧
    (handshakeSpans (packedFront ++ (infoHash ++ peerId) ++ rest)).peerId.bytes = peerId := by
  have hmsg : packedFront ++ (infoHash ++ peerId) ++ rest =
      packedFront ++ (infoHash ++ (peerId ++ rest)) := by simp
  rw [hmsg]
  constructor
  · show ((packedFront ++ (infoHash ++ (peerId ++ rest))).drop packedFront.length).take
      PeerHandshakeMsg.hashSize = _
    rw [List.drop_left, List.take_left' hi]
  · show ((packedFront ++ (infoHash ++ (peerId ++ rest))).drop (packedFront.length +
      PeerHandshakeMsg.hashSize)).take PeerHandshakeMsg.peerIdSize = _
    rw [← List.drop_drop, List.drop_left, List.drop_left' hi, List.take_left' hp]

/-- A message of the program, read back; what follows it does not matter. -/
theorem unpackHandshake_packHandshake {infoHash peerId : Bytes}
    (hi : infoHash.length = PeerHandshakeMsg.hashSize)
    (hp : peerId.length = PeerHandshakeMsg.peerIdSize) :
    (∃ packed, packHandshake { infoHash := hex infoHash, peerId := peerId } = .ok packed ∧
      packed.length = PeerHandshakeMsg.size ∧ PeerHandshakeMsg.size = 68 ∧
      ∀ rest, unpackHandshake (packed ++ rest) =
        .ok { infoHash := hex infoHash, peerId := hex peerId }) ∧
    ∀ bytes, sha1HashToBytes (hex bytes) = .ok bytes := by
  refine ⟨⟨_, packHandshake_hex infoHash peerId, ?_, rfl, fun rest => ?_⟩, sha1HashToBytes_hex⟩
  · rw [List.length_append, List.length_append, hi, hp]
    rfl
  · have hlen : 68 ≤ (packedFront ++ (infoHash ++ peerId) ++ rest).length := by
      rw [List.length_append, List.length_append, List.length_append, hi, hp]
      exact Nat.le_add_right 68 _
    have hinside : (handshakeSpans (packedFront ++ (infoHash ++ peerId) ++ rest)).Inside :=
      (handshakeSpans_inside_iff _).mpr hlen
    obtain ⟨hhash, hpeer⟩ := handshakeSpans_packed hi hp rest
    rw [(unpackHandshake_spans hlen).1 hinside, hhash, hpeer]

theorem unpackHandshake_packHandshake_zeros :
    (∃ packed, packHandshake
        { infoHash := hex (List.replicate 20 0), peerId := ascii "00112233445566778899" } =
          .ok packed ∧
      packed.length = PeerHandshakeMsg.size ∧ PeerHandshakeMsg.size = 68 ∧
      ∀ rest, unpackHandshake (packed ++ rest) =
        .ok { infoHash := hex (List.replicate 20 0),
              peerId := hex (ascii "00112233445566778899") }) ∧
    ∀ bytes, sha1HashToBytes (hex bytes) = .ok bytes :=
  unpackHandshake_packHandshake rfl rfl

/-! ## Messages of a peer -/

theorem unpackHandshake_throws_iff (msg : Bytes) :
    (∃ e, unpackHandshake msg = .error e ∧ e.caught = true) ↔
      msg.length < PeerHandshakeMsg.size := by
  constructor
  · intro h
    obtain ⟨e, he, hcaught⟩ := h
    refine Nat.lt_of_not_le fun hl => ?_
    by_cases hinside : (handshakeSpans msg).Inside
    · rw [(unpackHandshake_spans hl).1 hinside] at he
      cases he
    · rw [(unpackHandshake_spans hl).2 hinside] at he
      cases he
      cases hcaught
  · intro h
    exact ⟨_, if_pos h, rfl⟩

/-- Unpacking throws, or reads only the message, exactly when the message is
shorter than any may be or as long as its first byte asks for. -/
theorem unpackHandshake_inside_iff (msg : Bytes) :
    ((∃ e, unpackHandshake msg = .error e ∧ e.caught = true) ∨ (handshakeSpans msg).Inside) ↔
      (msg.length < PeerHandshakeMsg.size ∨ 49 + (msg.headD 0).toNat ≤ msg.length) :=
  or_congr (unpackHandshake_throws_iff msg) (handshakeSpans_inside_iff msg)

/-- A first byte of twenty in a message of the length of the program's own. -/
theorem unpackHandshake_reads_outside :
    ¬ ∀ msg : Bytes, (∃ e, unpackHandshake msg = .error e ∧ e.caught = true) ∨
      (handshakeSpans msg).Inside := by
  intro h
  rcases h (20 :: List.replicate 67 0) with hthrows | hinside
  · exact absurd ((unpackHandshake_throws_iff _).mp hthrows) (by decide)
  · exact absurd ((handshakeSpans_inside_iff _).mp hinside) (by decide)

end Bittorrent.Proto
