import Bittorrent.Client.Honest
import Bittorrent.Client.PieceLen
import Bittorrent.Client.Integrity
import Bittorrent.Lib.Chunks

/-! A download from a swarm of honest peers. Every worker gets the same places
of the shuffled list, round after round (`share`), so what its peer has to send
is known from the start; when each peer sends that, the download returns with
what `piece_len` leaves of the file (`honest_swarm`). -/

namespace Bittorrent.Client

open Lib Lib.Chunks Lib.Exec Misc Net Proto Torrent

/-! ## Who gets which piece -/

/-- The pieces of worker `j` among `m`: in each round its place in the next `m`. -/
def share (m j : Nat) (indexes : List Nat) : List Nat := (chunk m indexes).filterMap (·[j]?)

theorem share_eq {m j : Nat} (hj : j < m) (indexes : List Nat) :
    share m j indexes = indexes[j]?.toList ++ share m j (indexes.drop m) := by
  cases indexes with
  | nil =>
    rw [List.drop_nil]
    rfl
  | cons i indexes =>
    rw [share, chunk_of_ne_nil (Nat.zero_lt_of_lt hj) (List.cons_ne_nil i indexes),
      List.filterMap_cons, List.getElem?_take_of_lt hj]
    cases (i :: indexes)[j]? <;> rfl

section
variable {B : Type} {ops : PieceBody B}

/-- Awaiting the workers leaves each in its place. -/
theorem awaitWorkers_places (workers : List (Worker B)) : ∀ (pieces : List Nat) {s s' : Store}
    {workers' : List (Worker B)}, (∀ w ∈ workers, w.thread = none) → s.piecesToDownload.Nodup →
    awaitWorkers ops (assign workers pieces) s = .ok workers' s' →
    ∀ (j : Nat) w', workers'[j]? = some w' → ∃ w, workers[j]? = some w ∧
      (pieces[j]? = none → w' = w) ∧ ∀ i, pieces[j]? = some i → Transferred ops (w, i) w' := by
  induction workers with
  | nil =>
    intro pieces s s' workers' _ _ h j w' hj
    cases h
    cases hj
  | cons w workers ih =>
    intro pieces s s' workers' hidle hn h j w' hj
    cases pieces with
    | nil =>
      have hsame : assign (w :: workers) [] = w :: workers := rfl
      rw [hsame, awaitWorkers_idle ops hidle] at h
      cases h
      exact ⟨w', hj, fun _ => rfl, nofun⟩
    | cons i pieces =>
      obtain ⟨w₁, s₁, h₁, h₂⟩ := bind_eq_ok.mp h
      obtain ⟨workers₁, _, h₃, h₄⟩ := bind_eq_ok.mp h₂
      cases h₄
      obtain ⟨hw, hs⟩ := awaitWorker_ok hn h₁
      cases j with
      | zero =>
        cases hj
        refine ⟨w, rfl, nofun, fun i' hi' => ?_⟩
        cases hi'
        exact hw
      | succ j =>
        exact ih pieces (fun v hv => hidle v (List.mem_cons_of_mem _ hv)) (hs.sublist.nodup hn) h₃ j
          w' hj

theorem loopBody_places {d d' : Download B} (hidle : ∀ w ∈ d.workers, w.thread = none)
    (hn : d.store.piecesToDownload.Nodup) (h : loopBody ops d = .ok () d') (j : Nat)
    {w' : Worker B} (hj : d'.workers[j]? = some w') :
    ∃ w, d.workers[j]? = some w ∧ (d.store.piecesToDownload[j]? = none → w' = w) ∧
      ∀ i, d.store.piecesToDownload[j]? = some i → Transferred ops (w, i) w' := by
  unfold loopBody at h
  rw [round_idle ops hidle] at h
  cases hx : awaitWorkers ops (assign d.workers d.store.piecesToDownload)
      (d.store.request d.workers.length) with
  | ok workers' s' =>
    rw [hx] at h
    cases h
    have hn' : (d.store.request d.workers.length).piecesToDownload.Nodup := hn
    exact awaitWorkers_places d.workers d.store.piecesToDownload hidle hn' hx j w' hj
  | error e s' =>
    rw [hx] at h
    cases h

/-- `R` is kept by the transfers of a worker that is asked for these pieces in
order: each brings `c` of its piece. -/
def Sustains (ops : PieceBody B) (c : Nat → Bytes) (indexes : List Nat)
    (R : List Nat → B → Prop) : Prop :=
  ∀ i ∈ indexes, ∀ pieces b, R (i :: pieces) b → ∃ b', ops.downloadPiece i b = .ok () b' ∧
    ops.lastPieceIdx b' = i ∧ ops.piece b' = c i ∧ R pieces b'

/-- Each worker is ready for the pieces it will be asked for from round `k` on. -/
def Supplied (R : List Nat → B → Prop) (m : Nat) (indexes : List Nat) (k : Nat)
    (d : Download B) : Prop :=
  ∀ (j : Nat) w, d.workers[j]? = some w → R (share m j (indexes.drop (k * m))) w.body

variable {n m k : Nat} {shuffled : Shuffled n} {c : Nat → Bytes} {out : Bytes} {d d' : Download B}
  {R : List Nat → B → Prop} {workers : List (Worker B)} {files : Nat → Option Bytes}

/-- The pieces a worker will be asked for begin with the one it is asked for now. -/
theorem Supplied.head (hp : Punctual shuffled c out m k d) (hs : Supplied R m shuffled.indexes k d)
    {j : Nat} {w : Worker B} (hw : d.workers[j]? = some w) :
    R (d.store.piecesToDownload[j]?.toList ++ share m j (shuffled.indexes.drop ((k + 1) * m)))
      w.body := by
  have hj : j < m := hp.length ▸ (List.getElem?_eq_some_iff.mp hw).1
  have := hs j w hw
  rwa [share_eq hj, List.drop_drop, ← Nat.succ_mul, ← hp.piecesToDownload] at this

theorem transfers_place {t : Worker B × Nat} (ht : t ∈ d.transfers) :
    ∃ j : Nat, d.workers[j]? = some t.1 ∧ d.store.piecesToDownload[j]? = some t.2 := by
  obtain ⟨j, hj, rfl⟩ := List.mem_iff_getElem.mp ht
  simp only [Download.transfers, List.length_zip] at hj
  refine ⟨j, ?_, ?_⟩
  · simp only [Download.transfers, List.getElem_zip]
    exact List.getElem?_eq_getElem (by omega)
  · simp only [Download.transfers, List.getElem_zip]
    exact List.getElem?_eq_getElem (by omega)

theorem Supplied.transfers (hR : Sustains ops c shuffled.indexes R)
    (hp : Punctual shuffled c out m k d) (hs : Supplied R m shuffled.indexes k d) :
    ∀ t ∈ d.transfers, ∃ b, ops.downloadPiece t.2 t.1.body = .ok () b ∧
      ops.lastPieceIdx b = t.2 ∧ ops.piece b = c t.2 := by
  intro t ht
  obtain ⟨j, hw, hi⟩ := transfers_place ht
  have hready := hs.head hp hw
  rw [hi] at hready
  have hmem : t.2 ∈ shuffled.indexes := by
    have := List.mem_of_getElem? hi
    rw [hp.piecesToDownload] at this
    exact List.mem_of_mem_drop this
  obtain ⟨b, hb, hlast, hpiece, _⟩ := hR _ hmem _ _ hready
  exact ⟨b, hb, hlast, hpiece⟩

theorem Supplied.delivers (hR : Sustains ops c shuffled.indexes R)
    (hp : Punctual shuffled c out m k d) (hs : Supplied R m shuffled.indexes k d) :
    ∀ t ∈ d.transfers, Delivers ops c t ∧ Completes ops t := by
  intro t ht
  obtain ⟨b, hb, hlast, hpiece⟩ := hs.transfers hR hp t ht
  refine ⟨⟨fun b' hb' => ?_, fun e b' he => ?_⟩, b, hb⟩
  · obtain ⟨-, rfl⟩ := EStateM.Result.ok.inj (hb.symm.trans hb')
    exact ⟨hlast, hpiece⟩
  · cases hb.symm.trans he

/-- A round hands every worker on to the next. -/
theorem Supplied.loopBody (hR : Sustains ops c shuffled.indexes R)
    (hp : Punctual shuffled c out m k d) (hs : Supplied R m shuffled.indexes k d)
    (hb : loopBody ops d = .ok () d') : Supplied R m shuffled.indexes (k + 1) d' := by
  have hn : d.store.piecesToDownload.Nodup := by
    rw [hp.piecesToDownload]
    exact (List.drop_sublist _ _).nodup shuffled.nodup
  intro j w' hw'
  obtain ⟨w, hw, hnone, hsome⟩ := loopBody_places hp.idle hn hb j hw'
  have hready := hs.head hp hw
  cases hi : d.store.piecesToDownload[j]? with
  | none =>
    rw [hi] at hready
    rw [hnone hi]
    exact hready
  | some i =>
    rw [hi] at hready
    have hmem : i ∈ shuffled.indexes := by
      have := List.mem_of_getElem? hi
      rw [hp.piecesToDownload] at this
      exact List.mem_of_mem_drop this
    obtain ⟨b, hb', _, _, hnext⟩ := hR i hmem _ _ hready
    rcases (hsome i hi).body with hends | ⟨e, he, _⟩
    · obtain ⟨-, rfl⟩ := EStateM.Result.ok.inj (hb'.symm.trans hends)
      exact hnext
    · cases hb'.symm.trans he

theorem Punctual.start (hidle : ∀ w ∈ workers, w.thread = none) :
    Punctual shuffled c out workers.length 0 (.start shuffled workers files out) :=
  ⟨hidle, rfl, by simp [Download.start], by simp [Download.start], by simp [Download.start],
    by simp [Download.start], rfl⟩

/-- In every round every worker is ready for what it will be asked for. -/
theorem supplied_heads (hR : Sustains ops c shuffled.indexes R)
    (hidle : ∀ w ∈ workers, w.thread = none)
    (hstart : ∀ (j : Nat) w, workers[j]? = some w →
      R (share workers.length j shuffled.indexes) w.body)
    (h : Heads ops (.start shuffled workers files out) k d) :
    Punctual shuffled c out workers.length k d ∧
      Supplied R workers.length shuffled.indexes k d := by
  refine h.rule (I := fun k d => Punctual shuffled c out workers.length k d ∧
    Supplied R workers.length shuffled.indexes k d) ⟨.start hidle, ?_⟩ ?_
  · intro j w hw
    rw [Nat.zero_mul, List.drop_zero]
    exact hstart j w hw
  · rintro k t t' - ⟨hp, hs⟩ - hb
    have hnext := hp.loopBody ops fun u hu => (hs.delivers hR hp u hu).1
    rw [hb] at hnext
    exact ⟨hnext.2, hs.loopBody hR hp hb⟩

/-- The loop ends, and gathering puts the pieces into their order. -/
theorem supplied_download (hworkers : workers ≠ []) (hR : Sustains ops c shuffled.indexes R)
    (hidle : ∀ w ∈ workers, w.thread = none)
    (hstart : ∀ (j : Nat) w, workers[j]? = some w →
      R (share workers.length j shuffled.indexes) w.body) :
    ∃ k d s, Heads ops (.start shuffled workers files out) k d ∧ ¬ Running d ∧
      gatherPieces n d.store = .ok () s ∧ s.ostream = out ++ (List.range n).flatMap c := by
  have hm : 0 < workers.length := List.length_pos_iff.mpr hworkers
  have hall : ∀ k d, Heads ops (.start shuffled workers files out) k d →
      ∀ t ∈ d.transfers, Delivers ops c t ∧ Completes ops t := fun k d hd =>
    have h := supplied_heads hR hidle hstart hd
    h.2.delivers hR h.1
  -- as many rounds as it takes, and no more
  have hceil : n ≤ (n + workers.length - 1) / workers.length * workers.length ∧
      (n + workers.length - 1) / workers.length * workers.length < n + workers.length := by
    have hup := Nat.lt_div_mul_add hm (a := n + workers.length - 1)
    have hdown := Nat.div_mul_le_self (n + workers.length - 1) workers.length
    omega
  obtain ⟨d, hd⟩ := heads_of_completes ops hidle (fun k d hd t ht => (hall k d hd t ht).1)
    (fun k d hd t ht => (hall k d hd t ht).2) _ hceil.2
  have hp := (supplied_heads hR hidle hstart hd).1
  have hlen : shuffled.indexes.length ≤ (n + workers.length - 1) / workers.length * workers.length := by
    rw [shuffled.perm.length_eq, List.length_range]
    exact hceil.1
  have hfiles : ∀ i, i < n → d.store.files i = some (c i) := by
    intro i hi
    refine hp.files i ?_
    rw [hp.written, List.take_of_length_le hlen]
    exact shuffled.mem_iff.mpr hi
  refine ⟨_, d, _, hd, ?_, gatherPieces_eq fun i hi => ?_, ?_⟩
  · exact not_not.mpr (hp.piecesToDownload.trans (List.drop_eq_nil_iff.mpr hlen))
  · rw [hfiles i hi]
    rfl
  · show d.store.ostream ++ _ = _
    rw [hp.ostream]
    refine congrArg (out ++ ·) (List.flatMap_congr fun i hi => ?_)
    rw [hfiles i (List.mem_range.mp hi)]
    rfl

end

/-! ## The pieces of a file -/

/-- The metainfo is that of the file: as many pieces of `size` bytes as it takes. -/
structure Describes (metainfo : Metainfo) (pieceHashes : List Bytes) (file : Bytes) (size : Nat) :
    Prop where
  pieces : metainfo.pieces = .ok pieceHashes
  length : metainfo.length = file.length
  pieceLength : metainfo.pieceLength = size
  nonempty : file ≠ []
  positive : 0 < size
  fits : size ≤ 2 ^ 32
  count : pieceHashes.length = (file.length + size - 1) / size

/-- How long `piece_len` takes piece `i` of `count` to be. -/
def lenOf (file : Bytes) (size count i : Nat) : Nat :=
  if i = count - 1 then file.length % size else size

/-- What the file has at the place of piece `i`, as long as `piece_len` takes it. -/
def pieceOf (file : Bytes) (size count i : Nat) : Bytes :=
  (file.drop (i * size)).take (lenOf file size count i)

theorem flatMap_slices (file : Bytes) (size m : Nat) :
    (List.range m).flatMap (fun i => (file.drop (i * size)).take size) = file.take (m * size) := by
  induction m with
  | zero => simp
  | succ m ih =>
    rw [List.range_succ, List.flatMap_append, ih, List.flatMap_singleton, Nat.succ_mul, List.take_add]

/-- The pieces make up the file as far as the length of the last one goes. -/
theorem flatMap_pieceOf (file : Bytes) (size m : Nat) :
    (List.range (m + 1)).flatMap (pieceOf file size (m + 1)) =
      file.take (m * size + file.length % size) := by
  have hlast : lenOf file size (m + 1) m = file.length % size := if_pos rfl
  have hfull : (List.range m).flatMap (pieceOf file size (m + 1)) =
      (List.range m).flatMap fun i => (file.drop (i * size)).take size :=
    List.flatMap_congr fun i hi => by
      have : lenOf file size (m + 1) i = size := if_neg (Nat.ne_of_lt (List.mem_range.mp hi))
      rw [pieceOf, this]
  rw [List.range_succ, List.flatMap_append, hfull, flatMap_slices, List.flatMap_singleton, pieceOf,
    hlast, List.take_add]

section
variable {metainfo : Metainfo} {pieceHashes : List Bytes} {file : Bytes} {size : Nat}

theorem Describes.count_succ (h : Describes metainfo pieceHashes file size) :
    pieceHashes.length = (file.length - 1) / size + 1 := by
  have hpos := List.length_pos_iff.mpr h.nonempty
  rw [h.count, show file.length + size - 1 = file.length - 1 + size by omega,
    Nat.add_div_right _ h.positive]

/-- The pieces lie in the file. -/
theorem Describes.inside (h : Describes metainfo pieceHashes file size) {i : Nat}
    (hi : i < pieceHashes.length) :
    i * size + lenOf file size pieceHashes.length i ≤ file.length := by
  rw [h.count_succ] at hi
  have hdiv := Nat.div_mul_le_self (file.length - 1) size
  rw [lenOf, h.count_succ, Nat.add_sub_cancel]
  split
  · next hlast =>
    have hle : i * size ≤ file.length / size * size :=
      Nat.mul_le_mul_right size (hlast ▸ Nat.div_le_div_right (Nat.sub_le file.length 1))
    have hmod := Nat.div_add_mod' file.length size
    omega
  · next hlast =>
    have hle : (i + 1) * size ≤ (file.length - 1) / size * size :=
      Nat.mul_le_mul_right size (by omega)
    rw [Nat.succ_mul] at hle
    omega

theorem Describes.pieceOf_length (h : Describes metainfo pieceHashes file size) {i : Nat}
    (hi : i < pieceHashes.length) :
    (pieceOf file size pieceHashes.length i).length = lenOf file size pieceHashes.length i := by
  have := h.inside hi
  rw [pieceOf, List.length_take_of_le]
  rw [List.length_drop]
  omega

theorem Describes.pieceLen (h : Describes metainfo pieceHashes file size) (i : Nat) :
    Client.pieceLen metainfo i = .ok (lenOf file size pieceHashes.length i : Nat) := by
  have hlength : 0 < metainfo.length := by
    rw [h.length]
    exact Int.natCast_pos.mpr (List.length_pos_iff.mpr h.nonempty)
  have hpieceLength : 0 < metainfo.pieceLength := by
    rw [h.pieceLength]
    exact Int.natCast_pos.mpr h.positive
  have hne : pieceHashes ≠ [] := List.ne_nil_of_length_eq_add_one h.count_succ
  rw [pieceLen_eq h.pieces hlength hpieceLength hne, h.length, h.pieceLength, lenOf]
  split <;> simp

theorem Describes.lenOf_le (h : Describes metainfo pieceHashes file size) (i : Nat) :
    lenOf file size pieceHashes.length i ≤ size := by
  rw [lenOf]
  split
  · exact Nat.le_of_lt (Nat.mod_lt _ h.positive)
  · exact Nat.le_refl size

/-- A last piece that is not a full one begins where the full ones of the file end. -/
theorem Describes.last_begin (h : Describes metainfo pieceHashes file size)
    (hdvd : ¬ size ∣ file.length) :
    (pieceHashes.length - 1) * size + file.length % size = file.length := by
  obtain ⟨n, hn⟩ := Nat.exists_eq_succ_of_ne_zero
    (Nat.ne_of_gt (List.length_pos_iff.mpr h.nonempty))
  rw [hn] at hdvd ⊢
  rw [h.count_succ, hn, Nat.add_sub_cancel, Nat.succ_sub_one, ← Nat.succ_div_of_not_dvd hdvd]
  exact Nat.div_add_mod' _ size

/-- A last piece that is a full one is taken to be empty. -/
theorem Describes.last_full (h : Describes metainfo pieceHashes file size)
    (hdvd : size ∣ file.length) :
    (pieceHashes.length - 1) * size + size = file.length ∧ file.length % size = 0 := by
  have hpos := List.length_pos_iff.mpr h.nonempty
  obtain ⟨m, hm⟩ := hdvd
  obtain ⟨m, rfl⟩ := Nat.exists_eq_succ_of_ne_zero (show m ≠ 0 by
    rintro rfl
    omega)
  have hcount : pieceHashes.length = m + 1 := by
    rw [h.count, hm, Nat.mul_comm, Nat.add_sub_assoc h.positive]
    refine Nat.div_eq_of_lt_le (Nat.le_add_right _ _) ?_
    rw [Nat.succ_mul (m + 1)]
    exact Nat.add_lt_add_left (Nat.sub_lt h.positive Nat.one_pos) _
  exact ⟨by rw [hcount, hm, Nat.add_sub_cancel, Nat.mul_comm size, Nat.succ_mul],
    Nat.mod_eq_zero_of_dvd ⟨_, hm⟩⟩

/-- The pieces make up the file exactly when its last one is not a full one. -/
theorem Describes.joined (h : Describes metainfo pieceHashes file size) :
    (List.range pieceHashes.length).flatMap (pieceOf file size pieceHashes.length) =
      file.take ((pieceHashes.length - 1) * size + file.length % size) ∧
    (file.take ((pieceHashes.length - 1) * size + file.length % size) = file ↔
      ¬ size ∣ file.length) := by
  refine ⟨?_, ?_⟩
  · rw [h.count_succ, flatMap_pieceOf, Nat.add_sub_cancel]
  · rw [List.take_eq_self_iff]
    refine ⟨fun hle hdvd => ?_, fun hdvd => Nat.le_of_eq (h.last_begin hdvd).symm⟩
    obtain ⟨hend, hmod⟩ := h.last_full hdvd
    have := h.positive
    omega

/-- A piece is taken to be as long as it is, unless it is last and a full one. -/
theorem Describes.pieceOf_whole (h : Describes metainfo pieceHashes file size) {i : Nat}
    (hi : i < pieceHashes.length) :
    pieceOf file size pieceHashes.length i = (file.drop (i * size)).take size ↔
      ¬ (i + 1 = pieceHashes.length ∧ size ∣ file.length) := by
  by_cases hlast : i = pieceHashes.length - 1
  · have hnext : i + 1 = pieceHashes.length := by omega
    have hlen : lenOf file size pieceHashes.length i = file.length % size := if_pos hlast
    rw [pieceOf, hlen]
    refine ⟨fun heq hfull => ?_, fun hdvd => ?_⟩
    · obtain ⟨hend, hmod⟩ := h.last_full hfull.2
      have hlengths := congrArg List.length heq
      rw [hmod, List.take_zero, List.length_nil, List.length_take, List.length_drop] at hlengths
      have := h.positive
      rw [← hlast] at hend
      omega
    · have hend := h.last_begin fun hdvd' => hdvd ⟨hnext, hdvd'⟩
      have hmod := Nat.mod_lt file.length h.positive
      rw [← hlast] at hend
      rw [List.take_of_length_le, List.take_of_length_le] <;> rw [List.length_drop] <;> omega
  · have hlen : lenOf file size pieceHashes.length i = size := if_neg hlast
    rw [pieceOf, hlen]
    exact ⟨fun _ hfull => hlast (by omega), fun _ => rfl⟩

end

/-! ## The swarm -/

/-- The connection of a peer that can be reached, opens the session and answers
the requests for `pieces`. -/
structure Seeding (hash : Bytes) (content : Nat → Bytes) (pieces : List Nat) (socket : Socket) :
    Prop where
  reachable : Reachable socket
  stream : ∃ opening choose rest, Opening hash opening ∧ (∀ i, Chooses (choose i)) ∧
    socket.incoming = opening ++ (serveAll content choose pieces ++ rest)

/-- Such a peer at an address that the client understands. -/
structure Honest (makeAddress : Bytes → Except Exception Unit) (hash : Bytes) (content : Nat → Bytes)
    (pieces : List Nat) (peer : Bytes × Socket) : Prop where
  address : ∃ peerIp peerPort, parseIpPort peer.1 = .ok (peerIp, peerPort) ∧
    makeAddress peerIp = .ok ()
  seeding : Seeding hash content pieces peer.2

/-- A connected worker whose peer answers the requests for `pieces` next. -/
structure Ready (metainfo : Metainfo) (content : Nat → Bytes) (pieces : List Nat) (w : PieceWorker) :
    Prop where
  serving : Serving metainfo false w
  havePieceIdx : w.havePieceIdx = none
  stream : ∃ choose rest, (∀ i, Chooses (choose i)) ∧
    w.socket.incoming = serveAll content choose pieces ++ rest

section
variable {sha1 : Bytes → Digest} {makeAddress : Bytes → Except Exception Unit} {metainfo : Metainfo}
  {pieceHashes : List Bytes} {file hash : Bytes} {size : Nat}

/-- Transfers of the pieces use up the answers one after the other. -/
theorem Ready.sustains (h : Describes metainfo pieceHashes file size)
    (shuffled : Shuffled pieceHashes.length) :
    Sustains (pieceWorker sha1) (pieceOf file size pieceHashes.length) shuffled.indexes
      (Ready metainfo (pieceOf file size pieceHashes.length)) := by
  intro i hi pieces w hw
  obtain ⟨choose, rest, hchoose, hin⟩ := hw.stream
  have hlength := h.pieceOf_length (shuffled.mem_iff.mp hi)
  have hfits := Nat.le_trans (h.lenOf_le i) h.fits
  rw [serveAll, List.flatMap_cons, List.append_assoc] at hin
  obtain ⟨w', hw', hserving, hnone, hlast, hrest, hout⟩ := downloadPiece_serves sha1 hw.serving
    hw.havePieceIdx (h.pieceLen i) (hlength.trans (sizeT_natCast _).symm) (hlength ▸ hfits)
    (hchoose i) hin
  have hinternal : w.ostream = none := by simpa using hw.serving.external
  have hinternal' : w'.ostream = none := by simpa using hserving.external
  refine ⟨w', hw', hlast, ?_, hserving, hnone, choose, rest, hchoose, hrest⟩
  show w'.buffer = _
  simpa [PieceWorker.output, hinternal, hinternal'] using hout

/-- Setting up a worker keeps one whose connection could be set up, and gives up
the others for an exception that a thread catches. -/
theorem setupWorker_eq {peer peerIp peerPort : Bytes} (hparse : parseIpPort peer = .ok (peerIp, peerPort))
    (haddress : makeAddress peerIp = .ok ()) (socket : Socket) :
    setupWorker sha1 makeAddress metainfo peer socket =
      match connectToPeer sha1 (.new metainfo (toText peerIp) (Decimal.value peerPort) socket) with
      | .ok _ w => .ok (some (.new w))
      | .error e _ => if e.caught then .ok none else .error e := by
  have hnew := connectToPeer_established sha1
    (.new metainfo (toText peerIp) (Decimal.value peerPort) socket) rfl
  simp only [setupWorker, hparse, haddress, Worker.checkConnectionAsync, Worker.new, Worker.started,
    Option.isSome_none, Bool.false_eq_true, if_false, Worker.waitConnectionEstablished, Worker.join,
    Worker.runTask, pieceWorker, bind, Except.bind]
  cases hc : connectToPeer sha1
      (.new metainfo (toText peerIp) (Decimal.value peerPort) socket) with
  | ok u body =>
    rw [hc] at hnew
    simp only [hnew, if_true]
  | error e body =>
    rw [hc] at hnew
    cases he : e.caught <;> simp [he, hnew]

theorem setupWorker_honest {content : Nat → Bytes} {pieces : List Nat} {peer : Bytes × Socket}
    (hhash : metainfo.hash sha1 = .ok hash) (h : Honest makeAddress hash content pieces peer) :
    ∃ w, setupWorker sha1 makeAddress metainfo peer.1 peer.2 = .ok (some w) ∧ w.thread = none ∧
      Ready metainfo content pieces w.body := by
  obtain ⟨peerIp, peerPort, hparse, haddress⟩ := h.address
  obtain ⟨opening, choose, rest, hopening, hchoose, hin⟩ := h.seeding.stream
  obtain ⟨w, hw, hset⟩ := @connectToPeer_opening
    (.new metainfo (toText peerIp) (Decimal.value peerPort) peer.2) _ sha1 hash opening
    h.seeding.reachable hhash hopening hin
  have hserving : Serving metainfo false w :=
    ⟨hset.metainfo, by rw [hset.ostream]; rfl, hset.established, hset.haveMode, hset.prompt⟩
  refine ⟨.new w, ?_, rfl, hserving, hset.havePieceIdx, choose, rest, hchoose, hset.incoming⟩
  rw [setupWorker_eq hparse haddress, hw]

/-- All of them are set up, each worker in the place of its peer. -/
theorem setupWorkers_honest {content : Nat → Bytes} (hhash : metainfo.hash sha1 = .ok hash)
    (peers : List (Bytes × Socket)) : ∀ {pieces : Nat → List Nat},
    (∀ (j : Nat) peer, peers[j]? = some peer → Honest makeAddress hash content (pieces j) peer) →
    ∃ workers, setupWorkers sha1 makeAddress metainfo peers = .ok workers ∧
      workers.length = peers.length ∧
      ∀ (j : Nat) w, workers[j]? = some w → w.thread = none ∧
        Ready metainfo content (pieces j) w.body := by
  induction peers with
  | nil =>
    intro pieces _
    exact ⟨[], rfl, rfl, fun _ _ hw => absurd hw (by simp)⟩
  | cons peer peers ih =>
    intro pieces h
    obtain ⟨w, hw, hidle, hready⟩ := setupWorker_honest hhash (h 0 peer rfl)
    obtain ⟨workers, hworkers, hlen, hrest⟩ :=
      ih fun j peer' hpeer => h (j + 1) peer' (by rwa [List.getElem?_cons_succ])
    refine ⟨w :: workers, ?_, by rw [List.length_cons, hlen, List.length_cons], fun j v hv => ?_⟩
    · obtain ⟨address, socket⟩ := peer
      rw [setupWorkers, hw, hworkers]
      rfl
    · cases j with
      | zero =>
        cases hv
        exact ⟨hidle, hready⟩
      | succ j => exact hrest j v hv

/-- A download returns in one way. -/
theorem returns_unique {peers : List (Bytes × Socket)} {n : Nat} {shuffled : Shuffled n}
    {files : Nat → Option Bytes} {out : Bytes} {store store' : Store}
    (h : DownloadFile.Returns sha1 makeAddress metainfo peers shuffled files out store)
    (h' : DownloadFile.Returns sha1 makeAddress metainfo peers shuffled files out store') :
    store = store' := by
  obtain ⟨k, d, hd, hend, hgather⟩ := h
  obtain ⟨k', d', hd', hend', hgather'⟩ := h'
  obtain ⟨workers, _, hheads⟩ := reaches_iff_heads hd
  have hhead := (hheads k d).mp hd
  have hhead' := (hheads k' d').mp hd'
  have hsame : k = k' := by
    rcases Nat.lt_trichotomy k k' with hlt | heq | hgt
    · obtain ⟨t, ht, hrun⟩ := hhead'.earlier hlt
      exact absurd (ht.unique hhead ▸ hrun) hend
    · exact heq
    · obtain ⟨t, ht, hrun⟩ := hhead.earlier hgt
      exact absurd (ht.unique hhead' ▸ hrun) hend'
  subst hsame
  obtain rfl := hhead.unique hhead'
  exact (EStateM.Result.ok.inj (hgather.symm.trans hgather')).2

section
variable {peers : List (Bytes × Socket)} {shuffled : Shuffled pieceHashes.length}
  {files : Nat → Option Bytes} {out : Bytes}

/-- Honest peers are all kept, each worker ready for what it will be asked for. -/
theorem honest_setup (hhash : metainfo.hash sha1 = .ok hash)
    (hhonest : ∀ (j : Nat) peer, peers[j]? = some peer →
      Honest makeAddress hash (pieceOf file size pieceHashes.length)
        (share peers.length j shuffled.indexes) peer) :
    ∃ workers, setupWorkers sha1 makeAddress metainfo peers = .ok workers ∧
      workers.length = peers.length ∧ (∀ w ∈ workers, w.thread = none) ∧
      ∀ (j : Nat) w, workers[j]? = some w →
        Ready metainfo (pieceOf file size pieceHashes.length)
          (share workers.length j shuffled.indexes) w.body := by
  obtain ⟨workers, hsetup, hlen, hready⟩ := setupWorkers_honest hhash peers hhonest
  refine ⟨workers, hsetup, hlen, fun w hw => ?_, fun j w hw => hlen.symm ▸ (hready j w hw).2⟩
  obtain ⟨j, hj, rfl⟩ := List.mem_iff_getElem.mp hw
  exact (hready j _ (List.getElem?_eq_getElem hj)).1

theorem honest_completes (hmeta : Describes metainfo pieceHashes file size)
    (hhash : metainfo.hash sha1 = .ok hash)
    (hhonest : ∀ (j : Nat) peer, peers[j]? = some peer →
      Honest makeAddress hash (pieceOf file size pieceHashes.length)
        (share peers.length j shuffled.indexes) peer)
    {k : Nat} {d : Download PieceWorker}
    (h : DownloadFile.Reaches sha1 makeAddress metainfo peers shuffled files out k d) :
    ∀ t ∈ d.transfers, Completes (pieceWorker sha1) t := by
  obtain ⟨workers, hsetup, _, hidle, hready⟩ := honest_setup hhash hhonest
  obtain ⟨workers', hsetup', hheads⟩ := reaches_iff_heads h
  obtain rfl := Except.ok.inj (hsetup.symm.trans hsetup')
  have hR : Sustains (pieceWorker sha1) (pieceOf file size pieceHashes.length) shuffled.indexes
      (Ready metainfo (pieceOf file size pieceHashes.length)) := Ready.sustains hmeta shuffled
  obtain ⟨hp, hs⟩ := supplied_heads hR hidle hready ((hheads k d).mp h)
  exact fun t ht => (hs.delivers hR hp t ht).2

/-- The workers are supplied to the end. -/
theorem honest_returns (hmeta : Describes metainfo pieceHashes file size)
    (hhash : metainfo.hash sha1 = .ok hash) (hpeers : peers ≠ [])
    (hhonest : ∀ (j : Nat) peer, peers[j]? = some peer →
      Honest makeAddress hash (pieceOf file size pieceHashes.length)
        (share peers.length j shuffled.indexes) peer) :
    ∃ store, DownloadFile.Returns sha1 makeAddress metainfo peers shuffled files out store ∧
      store.ostream =
        out ++ file.take ((pieceHashes.length - 1) * size + file.length % size) := by
  obtain ⟨workers, hsetup, hlen, hidle, hready⟩ := honest_setup hhash hhonest
  have hworkers : workers ≠ [] := by
    rintro rfl
    exact hpeers (List.eq_nil_of_length_eq_zero hlen.symm)
  obtain ⟨k, d, store, hd, hend, hgather, hout⟩ := supplied_download hworkers
    (Ready.sustains hmeta shuffled) hidle hready
  rw [hmeta.joined.1] at hout
  exact ⟨store, ⟨k, d, ⟨pieceHashes, workers, hmeta.pieces, rfl, hsetup, hworkers, hd⟩, hend, hgather⟩,
    hout⟩

/-- When every peer has what its worker will ask for, each gets its worker, every
transfer completes and the download returns, whatever the order of the pieces
and however the peers cut them into blocks. The output is the file as far as
`piece_len` takes the last piece to go: all of it exactly when the piece length
does not divide its length. -/
theorem honest_swarm (hmeta : Describes metainfo pieceHashes file size)
    (hhash : metainfo.hash sha1 = .ok hash) (hpeers : peers ≠ [])
    (hhonest : ∀ (j : Nat) peer, peers[j]? = some peer →
      Honest makeAddress hash (pieceOf file size pieceHashes.length)
        (share peers.length j shuffled.indexes) peer) :
    (∃ workers, setupWorkers sha1 makeAddress metainfo peers = .ok workers ∧
      workers.length = peers.length) ∧
    (∀ k d, DownloadFile.Reaches sha1 makeAddress metainfo peers shuffled files out k d →
      ∀ t ∈ d.transfers, Completes (pieceWorker sha1) t) ∧
    ∃ store, DownloadFile.Returns sha1 makeAddress metainfo peers shuffled files out store ∧
      (∀ store', DownloadFile.Returns sha1 makeAddress metainfo peers shuffled files out store' →
        store' = store) ∧
      store.ostream =
        out ++ file.take ((pieceHashes.length - 1) * size + file.length % size) ∧
      (store.ostream = out ++ file ↔ ¬ size ∣ file.length) := by
  obtain ⟨workers, hsetup, hlen, _⟩ := honest_setup hhash hhonest
  obtain ⟨store, hreturns, hout⟩ := honest_returns hmeta hhash hpeers hhonest
  refine ⟨⟨workers, hsetup, hlen⟩, fun k d h => honest_completes hmeta hhash hhonest h, store,
    hreturns, fun _ h => returns_unique h hreturns, hout, ?_⟩
  rw [hout, List.append_cancel_left_eq]
  exact hmeta.joined.2

end

end

/-- The info hash that the front of an answer has room for. -/
theorem acceptable_handshakeOf {infoHash : Bytes} (h : infoHash.length = 20) :
    Acceptable (handshakeOf infoHash) (hex infoHash) := by
  have hfront : (19 :: ascii "BitTorrent protocol" ++ List.replicate 8 0 : Bytes).length = 28 := rfl
  refine ⟨?_, show 19 < 20 by omega, ?_⟩
  · rw [handshakeOf, List.length_append, List.length_append, hfront, h]
    decide
  · show hex (((handshakeOf infoHash).drop 28).take 20) = _
    rw [handshakeOf, List.append_assoc, List.drop_left' hfront, List.take_left' h]

/-- A peer that has the one byte of that torrent. -/
def honestSocket (infoHash : Bytes) : Socket where
  isOpen := false
  incoming := handshakeOf infoHash ++ (packUnchokeMsg ++ packUnchokeMsg) ++
    (serveAll (pieceOf [7] 2 1) (fun _ _ length => length) [0] ++ [])
  events _ := ⟨none, 1000, .eof⟩

section
variable {infoHash : Bytes}

theorem handshakeOf_length (h : infoHash.length = 20) :
    (handshakeOf infoHash).length = PeerHandshakeMsg.size := by
  rw [handshakeOf, List.length_append, List.length_append, h]
  rfl

theorem reachable_honestSocket (h : infoHash.length = 20) : Reachable (honestSocket infoHash) := by
  have hserved : (serveAll (pieceOf [7] 2 1) (fun _ _ length => length) [0]).length ≤ 100 := by
    decide +kernel
  have hlength : (honestSocket infoHash).incoming.length ≤ 1000 := by
    show (handshakeOf infoHash ++ (packUnchokeMsg ++ packUnchokeMsg) ++ (_ ++ [])).length ≤ 1000
    rw [List.length_append, List.length_append, handshakeOf_length h, List.append_nil]
    exact Nat.add_le_add (show 68 + 10 ≤ 900 by omega) hserved
  exact ⟨rfl, rfl, fun _ => rfl, fun _ => hlength⟩

theorem opening_honestSocket (h : infoHash.length = 20) : Opening (hex infoHash)
    (handshakeOf infoHash ++ (packUnchokeMsg ++ packUnchokeMsg)) :=
  ⟨_, packUnchokeMsg, rfl, handshakeOf_length h, acceptable_handshakeOf h, .unchoke⟩

theorem seeding_honestSocket (h : infoHash.length = 20) :
    Seeding (hex infoHash) (pieceOf [7] 2 1) [0] (honestSocket infoHash) where
  reachable := reachable_honestSocket h
  stream := ⟨_, fun _ _ length => length, [], opening_honestSocket h,
    fun _ _ _ h => ⟨h, Nat.le_refl _⟩, rfl⟩

end

theorem share_lone (socket : Socket) : share (lonePeer socket).length 0 loneShuffled.indexes = [0] := by
  have hlen : (lonePeer socket).length = 1 := rfl
  rw [hlen]
  decide

def loneHash : Bytes := List.replicate 20 62

theorem hash_onePiece : onePiece.hash lengthDigest = .ok (hex loneHash) := by
  decide +kernel

theorem describes_onePiece : Describes onePiece [List.replicate 20 0xFF] [7] 2 :=
  ⟨rfl, rfl, rfl, by decide, by decide, by decide, by decide⟩

theorem honest_honestSocket : Honest (fun _ => .ok ()) (hex loneHash) (pieceOf [7] 2 1) [0]
    (ascii "127.0.0.1:6881", honestSocket loneHash) where
  address := ⟨ascii "127.0.0.1", ascii "6881", rfl, rfl⟩
  seeding := seeding_honestSocket rfl

theorem honest_swarm_lone :
    (∃ workers, setupWorkers lengthDigest (fun _ => .ok ()) onePiece
        (lonePeer (honestSocket loneHash)) = .ok workers ∧ workers.length = 1) ∧
    (∀ k d, DownloadFile.Reaches lengthDigest (fun _ => .ok ()) onePiece
        (lonePeer (honestSocket loneHash)) loneShuffled (fun _ => none) [] k d →
      ∀ t ∈ d.transfers, Completes (pieceWorker lengthDigest) t) ∧
    ∃ store, DownloadFile.Returns lengthDigest (fun _ => .ok ()) onePiece (lonePeer (honestSocket loneHash))
      loneShuffled (fun _ => none) [] store ∧
    (∀ store', DownloadFile.Returns lengthDigest (fun _ => .ok ()) onePiece
      (lonePeer (honestSocket loneHash)) loneShuffled (fun _ => none) [] store' → store' = store) ∧
    store.ostream = [] ++ [7].take ((1 - 1) * 2 + 1 % 2) ∧
    (store.ostream = [] ++ [7] ↔ ¬ 2 ∣ 1) :=
  honest_swarm describes_onePiece hash_onePiece (List.cons_ne_nil _ _)
    fun j peer hj => by
      cases j with
      | zero =>
        obtain rfl := (Option.some.inj hj).symm
        rw [share_lone]
        exact honest_honestSocket
      | succ j => cases hj

end Bittorrent.Client
