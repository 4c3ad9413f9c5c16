import Bittorrent.Misc.Sha1
import Bittorrent.Proto.Types

/-! Building messages. -/

namespace Bittorrent.Proto

open Misc

def packMsgHeader (msgId : MsgId) (length : Nat) : Bytes :=
  packU32 (UInt32.ofNat length) ++ [msgId.toByte]

def packInterestedMsg : Bytes := packMsgHeader .interested 1

def packNotInterestedMsg : Bytes := packMsgHeader .notInterested 1

def packUnchokeMsg : Bytes := packMsgHeader .unchoke 1

def packRequestMsg (pieceIdx begin length : UInt32) : Bytes :=
  let msg := packU32 pieceIdx ++ packU32 begin ++ packU32 length
  packMsgHeader .request (msg.length + 1) ++ msg

def packHaveMsg (pieceIdx : UInt32) : Bytes :=
  let msg := packU32 pieceIdx
  packMsgHeader .have (msg.length + 1) ++ msg

def packHandshake (msg : PeerHandshakeMsg) : Except Exception Bytes := do
  let hash ← sha1HashToBytes msg.infoHash
  .ok (UInt8.ofNat msg.header.length :: (msg.header ++ msg.reserved ++ hash ++ msg.peerId))

/-- Handshakes of the program have the one size it expects of an answer. -/
theorem packHandshake_length (digest : Digest) {peerId : Bytes}
    (h : peerId.length = PeerHandshakeMsg.peerIdSize) :
    ∃ packed, packHandshake { infoHash := hex digest.bytes, peerId := peerId } = .ok packed ∧
      packed.length = PeerHandshakeMsg.size := by
  refine ⟨_, by simp only [packHandshake, sha1HashToBytes_hex]; rfl, ?_⟩
  simp only [List.length_cons, List.length_append, List.length_replicate, digest.length_eq, h]
  rfl

end Bittorrent.Proto
