import Bittorrent.Client.Rounds

/-! The files of a finished download have the hashes of the torrent exactly when
the peers sent the right bytes: `_check_piece_hash`, which compares a block with a
hash, is called nowhere, so that nothing on the way from a block to its file
depends on its hash. -/

namespace Bittorrent.Client

open Lib.Exec Misc Net Proto Torrent

/-- The blocks that arrived in a transfer are the piece it is about. -/
def Genuine (sha1 : Bytes → Digest) (pieceHashes : List Bytes) (pieceIdx : Nat)
    (before after : PieceWorker) : Prop :=
  pieceHashes[pieceFor before pieceIdx]? =
    some (sha1 (blocksFor (pieceFor before pieceIdx) (after.log.drop before.log.length))).bytes

section
variable {sha1 : Bytes → Digest} {makeAddress : Bytes → Except Exception Unit}
  {metainfo : Metainfo} {peers : List (Bytes × Socket)}

theorem connectToPeer_internal {peerIp : String} {peerPort : Nat} {socket : Socket}
    {w : PieceWorker}
    (h : connectToPeer sha1 (.new metainfo peerIp peerPort socket) = .ok () w) :
    w.ostream = none :=
  (internal_kept.keeps_connectToPeer internal_connect (fun _ _ => trivial) sha1).ok rfl h

/-- The workers of a download keep their own buffers. -/
theorem internal_heads {workers : List (Worker PieceWorker)} {n k : Nat} {shuffled : Shuffled n}
    {files : Nat → Option Bytes} {out : Bytes} {d : Download PieceWorker}
    (hsetup : setupWorkers sha1 makeAddress metainfo peers = .ok workers)
    (h : Heads (pieceWorker sha1) (.start shuffled workers files out) k d) :
    ∀ w ∈ d.workers, w.body.ostream = none := by
  exact keeps_heads hsetup (fun _ _ _ _ _ hc => connectToPeer_internal hc) (keeps_internal sha1) h

/-- What a transfer delivers to the scheduler is what arrived for its piece. -/
theorem genuine_iff {pieceHashes : List Bytes} {pieceIdx : Nat} {w w' : PieceWorker}
    (h : downloadPiece sha1 pieceIdx w = .ok () w') (ho : w.ostream = none) :
    pieceHashes[w'.lastPieceIdx]? = some (sha1 w'.buffer).bytes ↔
      Genuine sha1 pieceHashes pieceIdx w w' := by
  obtain ⟨es, hes, hb⟩ := buffer_eq_received h ho
  rw [Genuine, hes, List.drop_left, ← hb, (downloadPiece_ok h ho).1]

/-- A download that returns has written all files one after the other to the
output. The files have the hashes of the torrent if and only if in each of its
transfers that returned the peer had sent the piece. -/
theorem download_integrity_iff {pieceHashes : List Bytes} {n : Nat} {shuffled : Shuffled n}
    {files : Nat → Option Bytes} {out : Bytes} {store : Store}
    (hpieces : metainfo.pieces = .ok pieceHashes)
    (h : DownloadFile.Returns sha1 makeAddress metainfo peers shuffled files out store) :
    store.ostream =
      out ++ (List.range pieceHashes.length).flatMap (fun i => (store.files i).getD []) ∧
    ((∀ i, i < pieceHashes.length → ∃ content, store.files i = some content ∧
        pieceHashes[i]? = some (sha1 content).bytes) ↔
      ∀ k d, DownloadFile.Reaches sha1 makeAddress metainfo peers shuffled files out k d →
        ∀ t ∈ d.transfers, ∀ w, downloadPiece sha1 t.2 t.1.body = .ok () w →
          Genuine sha1 pieceHashes t.2 t.1.body w) := by
  obtain ⟨k, d, ⟨hashes, workers, hhashes, hn, hsetup, hne, hheads⟩, hend, hgather⟩ := h
  obtain rfl : pieceHashes = hashes := Except.ok.inj (hpieces.symm.trans hhashes)
  subst hn
  have hidle := idle_of_setup hsetup
  have hs := scheduled_iterates (pieceWorker sha1) hheads
  have hleft : d.store.piecesToDownload = [] := Decidable.not_not.mp hend
  have hwritten : ∀ i, i ∈ d.store.written ↔ i < pieceHashes.length := by
    intro i
    rw [hs.written_iff, hleft]
    exact and_iff_left List.not_mem_nil
  rw [gatherPieces_eq fun i hi => hs.files i ((hwritten i).mpr hi)] at hgather
  cases hgather
  have hout : d.store.ostream = out := (settles_heads hidle hheads).ostream
  refine ⟨by rw [hout], ?_⟩
  have hfiles := files_iff hidle hheads
    fun i content => pieceHashes[i]? = some (sha1 content).bytes
  simp only [hwritten] at hfiles
  refine hfiles.trans ⟨?_, ?_⟩
  · rintro hall j d' ⟨hashes', workers', _, _, hsetup', _, hheads'⟩ t ht w hw
    obtain rfl : workers = workers' := Except.ok.inj (hsetup.symm.trans hsetup')
    have ho := internal_heads hsetup hheads' _ (List.of_mem_zip ht).1
    refine (genuine_iff hw ho).mp (hall t w ⟨j, d', ?_, hheads', ht⟩ hw)
    -- the run has no head after the one at which the list is empty
    exact hheads.lt_of_running hend hheads' (List.ne_nil_of_mem (List.of_mem_zip ht).2)
  · rintro hall t w ⟨j, d', _, hheads', ht⟩ hw
    have ho := internal_heads hsetup hheads' _ (List.of_mem_zip ht).1
    exact (genuine_iff hw ho).mpr
      (hall j d' ⟨pieceHashes, workers, hpieces, rfl, hsetup, hne, hheads'⟩ t ht w hw)

end

private theorem loneHead_ok : ((loneHead (onePieceSocket 7)).map fun d =>
    (d.workers.length, d.store.piecesToDownload, d.store.files 0)) = .ok (1, [], some [7]) := by
  decide +kernel

/-- The peer sends the byte 7, whose stand-in hash is not that of the torrent. -/
private theorem lone_returns : ∃ store, store.files 0 = some [7] ∧
    DownloadFile.Returns lengthDigest (fun _ => .ok ()) onePiece (lonePeer (onePieceSocket 7))
      loneShuffled (fun _ => none) [] store := by
  obtain ⟨d, hd, h⟩ := except_map_eq_ok.mp loneHead_ok
  simp only [Prod.mk.injEq] at h
  obtain ⟨hlen, hend, hfile⟩ := h
  have hgather : ∀ i, i < 1 → (d.store.files i).isSome = true := by
    intro i hi
    obtain rfl : i = 0 := by omega
    rw [hfile]
    rfl
  have hne : d.workers ≠ [] := List.ne_nil_of_length_pos (by omega)
  exact ⟨_, by exact hfile, 1, d, reaches_of_loneHead hd hne, not_not.mpr hend,
    gatherPieces_eq hgather⟩

theorem download_integrity_iff_lone : ∃ store,
    DownloadFile.Returns lengthDigest (fun _ => .ok ()) onePiece (lonePeer (onePieceSocket 7))
      loneShuffled (fun _ => none) [] store ∧
    store.ostream = [] ++ (List.range 1).flatMap (fun i => (store.files i).getD []) ∧
    ((∀ i, i < 1 → ∃ content, store.files i = some content ∧
        [List.replicate 20 (0xFF : UInt8)][i]? = some (lengthDigest content).bytes) ↔
      ∀ k d, DownloadFile.Reaches lengthDigest (fun _ => .ok ()) onePiece
          (lonePeer (onePieceSocket 7)) loneShuffled (fun _ => none) [] k d →
        ∀ t ∈ d.transfers, ∀ w, downloadPiece lengthDigest t.2 t.1.body = .ok () w →
          Genuine lengthDigest [List.replicate 20 0xFF] t.2 t.1.body w) := by
  obtain ⟨store, _, hret⟩ := lone_returns
  exact ⟨store, hret,
    download_integrity_iff (show onePiece.pieces = .ok [List.replicate 20 0xFF] from rfl) hret⟩

/-- This download returns with the byte of the peer in place of the piece. -/
theorem download_takes_any_bytes :
    ¬ ∀ (sha1 : Bytes → Digest) (makeAddress : Bytes → Except Exception Unit)
      (torrentContent : Bytes) (metainfo : Metainfo) (pieceHashes : List Bytes)
      (peers : List (Bytes × Socket)) (n : Nat) (shuffled : Shuffled n)
      (files : Nat → Option Bytes) (out : Bytes) (store : Store),
      fromFile torrentContent true = .value metainfo → metainfo.pieces = .ok pieceHashes →
      DownloadFile.Returns sha1 makeAddress metainfo peers shuffled files out store →
      ∀ i, i < pieceHashes.length → ∃ content, store.files i = some content ∧
        pieceHashes[i]? = some (sha1 content).bytes := by
  intro hall
  obtain ⟨store, hfile, hret⟩ := lone_returns
  obtain ⟨content, hc, hhash⟩ := hall _ _ _ _ [List.replicate 20 0xFF] _ _ _ _ _ _
    fromFile_onePiece rfl hret 0 (by decide)
  rw [hfile] at hc
  cases hc
  exact absurd hhash (by decide +kernel)

end Bittorrent.Client
