import Bittorrent.Loading
import Bittorrent.Main

/-! A torrent that was published: its file, the list the tracker has for it, and
peers that have all pieces. `info` prints what the file says (`info_prints`),
and `download` makes the published file (`download_makes_file`). -/

namespace Bittorrent.Main

open Lib Lib.Bencode Lib.Chunks Lib.Decimal Lib.Exec Lib.OrderedMap Bencode Client Misc Net Torrent

/-! ## The torrent file -/

/-- What a torrent file says, where the info dictionary is in its canonical text. -/
structure TorrentText (content announce info pieces : Bytes) (length pieceLength : Int) : Prop where
  entries : ∃ w t es members, content = w ++ t ∧ Derives accepted w (.value (.dict es)) ∧
    lookup (ascii "announce") es = some (.str announce) ∧
    lookup (ascii "info") es = some (.dict members) ∧
    lookup (ascii "length") members = some (.int length) ∧
    lookup (ascii "piece length") members = some (.int pieceLength) ∧
    lookup (ascii "pieces") members = some (.str pieces)
  announceText : Utf8.Valid announce
  piecesBinary : ¬ Utf8.Valid pieces
  infoText : Torrent.infoText content = some info
  canonical : ∃ x, Derives canonical info (.value x)

section
variable {content announce info pieces : Bytes} {length pieceLength : Int}

theorem lookup_denoteEntries (k : Bytes) (es : List (Bytes × Value)) :
    lookup k (ofList (denoteEntries es)) = (lookup k es).map denote := by
  rw [lookup_ofList, denoteEntries_eq_map, lookup_map]

/-- What the file says is what is loaded. -/
theorem TorrentText.loaded (h : TorrentText content announce info pieces length pieceLength) :
    ∃ m, fromFile content true = .value m ∧ m.announce = announce ∧ m.length = length ∧
      m.pieceLength = pieceLength ∧ m.piecesBytes = .ok pieces := by
  obtain ⟨w, t, es, members, rfl, hw, hannounce, hinfo, hlength, hpieceLength, hpieces⟩ := h.entries
  have hdec := (Derives.decodes (hw.mono accepted_le_graded)).total t
  have hstring : denoteString announce = .string announce := if_pos h.announceText
  refine ⟨⟨denote (.dict es), announce, length, pieceLength⟩, ?_, rfl, rfl, rfl, ?_⟩
  · rw [fromFile_object hdec true]
    simp only [load, isFullMeta, readMembers, Json.contains, Json.value, lookup_denoteEntries, hannounce,
      hinfo, Option.map_some, Option.getD_some, denote, hlength, hpieceLength, hstring]
    rfl
  · rw [piecesBytes_of_derives (hw.mono accepted_le_loose) hinfo hpieces hdec, if_neg h.piecesBinary]

/-- The hash is that of the text of the info dictionary. -/
theorem TorrentText.hash (h : TorrentText content announce info pieces length pieceLength)
    {m : Metainfo} (hm : fromFile content true = .value m) :
    m.hash Misc.sha1 = .ok (hex (Sha1.hash info).bytes) := by
  obtain ⟨_, _, e, value, _, hdec, htext, hvalue, hempty⟩ := infoText_of_fromFile hm
  obtain rfl : e.value = info := Option.some.inj (htext.symm.trans h.infoText)
  obtain ⟨encodedInfo, hencode, hiff⟩ := encode_consumed hdec
  obtain rfl := hiff.mpr h.canonical
  rw [Metainfo.hash, hvalue]
  simp only [bind, Except.bind, hencode, hempty]
  rfl

/-! ## What `info` prints -/

def infoReport (announce infoHash : Bytes) (length pieceLength : Int) (pieces : List Bytes) : Bytes :=
  ascii "Tracker URL: " ++ announce ++ ascii "\nLength: " ++ printInt length ++
    ascii "\nInfo Hash: " ++ hex infoHash ++ ascii "\nPiece Length: " ++ printInt pieceLength ++
    ascii "\nPiece Hashes:\n" ++ pieces.flatMap fun piece => hex piece ++ [10]

theorem printPieces_ok (pieces : List Bytes) : ∀ t : Terminal, printPieces pieces t =
    .ok () { t with stdout := t.stdout ++ pieces.flatMap fun piece => hex piece ++ [10] } := by
  induction pieces with
  | nil =>
    intro t
    simp only [List.flatMap_nil, List.append_nil]
    rfl
  | cons piece pieces ih =>
    intro t
    have hline : println (hex piece) t = .ok () { t with stdout := t.stdout ++ (hex piece ++ [10]) } :=
      rfl
    rw [printPieces, bind_of_ok hline, ih, List.flatMap_cons, List.append_assoc]

theorem attempt_ok {α : Type} (a : α) (t : Terminal) : attempt (.ok a) t = .ok a t := rfl

theorem print_ok (text : Bytes) (t : Terminal) :
    print text t = .ok () { t with stdout := t.stdout ++ text } := rfl

theorem openOutput_ok (t : Terminal) : openOutput t = .ok () { t with outputFile := some [] } := rfl

theorem println_ok (text : Bytes) (t : Terminal) :
    println text t = .ok () { t with stdout := t.stdout ++ (text ++ [10]) } := rfl

theorem readMetainfo_none (h : fromFile content true = .nullopt) (t : Terminal) :
    readMetainfo content t = .ok none t := by
  rw [readMetainfo, h]
  rfl

theorem readMetainfo_throws {e : Exception} (h : fromFile content true = .throws e) (t : Terminal) :
    readMetainfo content t = .error e t := by
  rw [readMetainfo, h]
  rfl

theorem readMetainfo_ok {m : Metainfo} (h : fromFile content true = .value m) (t : Terminal) :
    readMetainfo content t = .ok (some m) t := by
  rw [readMetainfo, h]
  rfl

/-- What `info` prints before the piece hashes. -/
def infoHead (metainfo : Metainfo) (hash : Bytes) : Bytes :=
  ascii "Tracker URL: " ++ metainfo.announce ++ ascii "\nLength: " ++ printInt metainfo.length ++
    ascii "\nInfo Hash: " ++ hash ++ ascii "\nPiece Length: " ++ printInt metainfo.pieceLength ++ [10]

def printHashes (metainfo : Metainfo) : Command ExitCode := do
  let pieces ← attempt metainfo.pieces
  println (ascii "Piece Hashes:")
  printPieces pieces
  return .success

theorem printHashes_ok {m : Metainfo} {hashes : List Bytes} (h : m.pieces = .ok hashes) (t : Terminal) :
    printHashes m t = .ok .success { t with
      stdout := t.stdout ++ (ascii "Piece Hashes:" ++ [10]) ++
        hashes.flatMap fun piece => hex piece ++ [10] } := by
  rw [printHashes, h, bind_of_ok (attempt_ok _ _), bind_of_ok (println_ok _ _),
    bind_of_ok (printPieces_ok _ _)]
  rfl

theorem printHashes_error {m : Metainfo} {e : Exception} (h : m.pieces = .error e) (t : Terminal) :
    printHashes m t = .error e t := by
  rw [printHashes, h]
  rfl

theorem infoCommand_loaded {Handle : Type} {world : World Handle} {path : Bytes}
    (hpath : world.fileAt path = some content) {m : Metainfo} (hm : fromFile content true = .value m)
    {hash : Bytes} (hhash : m.hash Misc.sha1 = .ok hash) :
    infoCommand world path {} = printHashes m { stdout := infoHead m hash } := by
  rw [infoCommand, hpath]
  dsimp only
  rw [bind_of_ok (readMetainfo_ok hm {})]
  simp only [hhash]
  rw [bind_of_ok (attempt_ok _ _), bind_of_ok (println_ok _ _)]
  rfl

theorem commandLine_info {Handle : Type} (world : World Handle) (rounds : Nat) (path : Bytes) :
    commandLine world rounds [ascii "info", path] = infoCommand world path := rfl

/-- `info` prints what the file says and the hash of the text of its info
dictionary. A string of pieces that ends within a hash is read past its end. -/
theorem info_prints {Handle : Type} {world : World Handle} {path : Bytes}
    (h : TorrentText content announce info pieces length pieceLength)
    (hpath : world.fileAt path = some content) (rounds : Nat) :
    (pieceHashLength ∣ pieces.length → main world rounds [ascii "info", path] = .exit .success
      { stdout := infoReport announce (Sha1.hash info).bytes length pieceLength
          (chunk pieceHashLength pieces) }) ∧
    (¬ pieceHashLength ∣ pieces.length → main world rounds [ascii "info", path] =
      .undefined "iterator past the end") := by
  obtain ⟨m, hm, rfl, rfl, rfl, hbytes⟩ := h.loaded
  have hpieces := pieces_of_bytes hbytes
  rw [main, commandLine_info, infoCommand_loaded hpath hm (h.hash hm)]
  refine ⟨fun hdvd => ?_, fun hdvd => ?_⟩
  · have hlast : ascii "\nPiece Hashes:\n" = [10] ++ (ascii "Piece Hashes:" ++ [10]) := rfl
    rw [printHashes_ok (hpieces.1 hdvd), infoReport, infoHead, hlast]
    simp only [List.append_assoc]
  · rw [printHashes_error (hpieces.2 hdvd)]
    rfl

end

/-! ## A file of one byte -/

def loneInfo : Bytes :=
  ascii "d6:lengthi1e12:piece lengthi2e6:pieces20:" ++ List.replicate 20 0xFF ++ ascii "e"

def loneInfoValue : Json := .object [(ascii "length", .numberInteger 1),
  (ascii "piece length", .numberInteger 2), (ascii "pieces", .binary (List.replicate 20 0xFF))]

def lonePeers : Bytes := [127, 0, 0, 1, 0x1A, 0xE1]

def loneWorld : World (Bytes × Bytes) where
  program := ascii "bittorrent"
  errorLine message := ascii "[error] " ++ message ++ [10]
  setupBars := []
  downloadBars := []
  fileAt _ := some (torrentText (List.replicate 20 0xFF))
  parentMissing _ := false
  writable _ := true
  api := textUrl
  http := ⟨fun _ => (.ok, responseWith lonePeers), fun _ => 0⟩
  curl := ⟨fun _ => .ok, fun _ => .ok, []⟩
  makeAddress _ := .ok ()
  socket _ := honestSocket (Sha1.hash loneInfo).bytes
  shuffle n := ⟨List.range n, .refl _⟩
  createDirForPieces := .ok ()
  pieceFiles _ := none

theorem torrentText_lone : TorrentText (torrentText (List.replicate 20 0xFF)) (ascii "a") loneInfo
    (List.replicate 20 0xFF) 1 2 where
  entries := ⟨_, [], entriesWith (List.replicate 20 0xFF), infoWith (List.replicate 20 0xFF),
    (List.append_nil _).symm, derives_torrentText (by decide), rfl, rfl, rfl, rfl, rfl⟩
  announceText := by decide
  piecesBinary := by decide +kernel
  infoText := by decide +kernel
  canonical := by
    have hdec : decodeBencodedValue loneInfo = .value (⟨.dictionary, loneInfo⟩, loneInfoValue) := rfl
    have henc : encode loneInfoValue = some loneInfo := by decide +kernel
    obtain ⟨encodedInfo, h, hiff⟩ := encode_consumed hdec
    exact hiff.mp (Option.some.inj (h.symm.trans henc))

theorem info_prints_lone :
    (pieceHashLength ∣ 20 → main loneWorld 0 [ascii "info", ascii "a.torrent"] = .exit .success
      { stdout := infoReport (ascii "a") (Sha1.hash loneInfo).bytes 1 2
          (chunk pieceHashLength (List.replicate 20 0xFF)) }) ∧
    (¬ pieceHashLength ∣ 20 → main loneWorld 0 [ascii "info", ascii "a.torrent"] =
      .undefined "iterator past the end") :=
  info_prints torrentText_lone rfl 0

/-! ## The list of the tracker -/

/-- What a response of the tracker says: the peers, in six bytes each. -/
structure ResponseText (response peers : Bytes) : Prop where
  entries : ∃ w t es, response = w ++ t ∧ Derives accepted w (.value (.dict es)) ∧
    lookup (ascii "peers") es = some (.str peers) ∧ lookup (ascii "failure reason") es = none
  binary : ¬ Utf8.Valid peers
  whole : peersChunkSizeBytes ∣ peers.length

def listed (peers : Bytes) : List Bytes := (chunk peersChunkSizeBytes peers).map decodeIpPortBinary

theorem ResponseText.listed {response peers : Bytes} (h : ResponseText response peers) :
    peersOfResponse response = .ok (listed peers) := by
  obtain ⟨w, t, es, rfl, hw, hpeers, hreason⟩ := h.entries
  have hdec := (Derives.decodes (hw.mono accepted_le_graded)).total t
  rw [peersOfResponse_of_derives (hw.mono accepted_le_loose) hpeers hreason hdec, if_neg h.binary,
    decodePeers_ok h.whole]
  rfl

theorem listed_length {peers : Bytes} (h : peersChunkSizeBytes ∣ peers.length) :
    (listed peers).length = peers.length / peersChunkSizeBytes := by
  rw [listed, List.length_map]
  exact (chunk_exact peersChunkSizeBytes_pos (Nat.mul_div_cancel' h).symm).1

theorem listed_ne_nil {peers : Bytes} (h : peersChunkSizeBytes ∣ peers.length) (hne : peers ≠ []) :
    listed peers ≠ [] := by
  intro hnil
  have hlen := listed_length h
  rw [hnil, List.length_nil] at hlen
  have hfew := Nat.lt_of_div_eq_zero peersChunkSizeBytes_pos hlen.symm
  exact hne (List.eq_nil_of_length_eq_zero (Nat.eq_zero_of_dvd_of_lt h hfew))

/-- Addresses of four numbers are understood. -/
def UnderstandsAddresses (makeAddress : Bytes → Except Exception Unit) : Prop :=
  ∀ a b c d : UInt8, makeAddress (Decimal.print a.toNat ++ 46 :: Decimal.print b.toNat ++
    46 :: Decimal.print c.toNat ++ 46 :: Decimal.print d.toNat) = .ok ()

theorem UnderstandsAddresses.listed {makeAddress : Bytes → Except Exception Unit}
    (h : UnderstandsAddresses makeAddress) {peers peer : Bytes}
    (hwhole : peersChunkSizeBytes ∣ peers.length) (hpeer : peer ∈ listed peers) :
    ∃ peerIp peerPort, parseIpPort peer = .ok (peerIp, peerPort) ∧ makeAddress peerIp = .ok () := by
  obtain ⟨c, hc, rfl⟩ := List.mem_map.mp hpeer
  have hlen := (chunk_exact peersChunkSizeBytes_pos (Nat.mul_div_cancel' hwhole).symm).2.1 c hc
  obtain ⟨b₀, b₁, b₂, b₃, b₄, b₅, rfl⟩ := exists_of_length_six hlen
  have hport : b₄.toNat * 256 + b₅.toNat < 65536 := by
    have := b₄.toNat_lt
    have := b₅.toNat_lt
    omega
  rw [decodeIpPortBinary_eq]
  exact ⟨_, _, parseIpPort_numerals (print_byte b₀) (print_byte b₁) (print_byte b₂) (print_byte b₃)
    (print_port hport), h b₀ b₁ b₂ b₃⟩

section
variable {Handle : Type} {world : World Handle} {metainfo : Metainfo}

/-- The tracker answers the request for the torrent. -/
def Answers (world : World Handle) (metainfo : Metainfo) (response : Bytes) : Prop :=
  ∃ url text, announceUrl world.api Misc.sha1 metainfo = .ok url ∧
    Url.toString world.api url = .ok text ∧ world.http.get text = (.ok, response)

theorem Answers.getPeers {response peers : Bytes} (h : Answers world metainfo response)
    (hresponse : ResponseText response peers) :
    getPeers world.api world.http Misc.sha1 metainfo = .ok (listed peers) := by
  obtain ⟨url, text, hurl, htext, hget⟩ := h
  rw [Client.getPeers, hurl]
  simp only [bind, Except.bind, htext, hget]
  exact hresponse.listed

/-! ## The download -/

/-- Within enough rounds the loop comes to the end it has. -/
theorem downloadPieces_of_ended {n k : Nat} {shuffled : Shuffled n}
    {workers : List (Worker PieceWorker)} {out : Bytes} {d : Download PieceWorker} {store : Store}
    (hd : Heads (pieceWorker Misc.sha1) (.start shuffled workers world.pieceFiles out) k d)
    (hend : ¬ Running d) (hgather : gatherPieces n d.store = .ok () store) {rounds : Nat}
    (hrounds : k < rounds) :
    downloadPieces world rounds shuffled workers out = .ok () store.ostream := by
  rw [downloadPieces, whileLoop_of_ended _ hend hd hrounds]
  simp only [hgather]

theorem downloadPieces_ok {n rounds : Nat} {shuffled : Shuffled n}
    {workers : List (Worker PieceWorker)} {out out' : Bytes}
    (h : downloadPieces world rounds shuffled workers out = .ok () out') :
    ∃ k d store, Heads (pieceWorker Misc.sha1) (.start shuffled workers world.pieceFiles out) k d ∧
      ¬ Running d ∧ gatherPieces n d.store = .ok () store ∧ store.ostream = out' := by
  unfold downloadPieces at h
  split at h
  · cases h
  · next d hloop =>
    obtain ⟨k, _, hd, hend⟩ := whileLoop_ok hloop
    split at h
    · cases h
    · next store hgather =>
      cases h
      exact ⟨k, d, store, hd, hend, hgather, rfl⟩

/-- What `download_file` prints when it comes to its end. -/
def downloadLines (world : World Handle) : Bytes :=
  ascii "Setup connection..." ++ [10] ++ world.setupBars ++ (ascii "Downloading..." ++ [10]) ++
    world.downloadBars

/-- Within enough rounds the function returns as the loop without a bound does. -/
theorem downloadFile_of_returns {peers hashes : List Bytes} {out : Bytes} {store : Store}
    (hhashes : metainfo.pieces = .ok hashes) (hdir : world.createDirForPieces = .ok ())
    (h : DownloadFile.Returns Misc.sha1 world.makeAddress metainfo (connections world peers)
      (world.shuffle hashes.length) world.pieceFiles out store) :
    ∃ enough, ∀ rounds, enough ≤ rounds → ∀ stdout,
      downloadFile world rounds metainfo peers ⟨stdout, some out⟩ =
        .ok () ⟨stdout ++ downloadLines world, some store.ostream⟩ := by
  obtain ⟨k, d, ⟨pieces, workers, hpieces, _, hsetup, hworkers, hd⟩, hend, hgather⟩ := h
  refine ⟨k + 1, fun rounds hrounds stdout => ?_⟩
  have hempty : workers.isEmpty = false := by simpa using hworkers
  have hrun := downloadPieces_of_ended hd hend hgather hrounds
  rw [downloadFile, hhashes, bind_of_ok (attempt_ok _ _), bind_of_ok (println_ok _ _),
    bind_of_ok (print_ok _ _), hsetup, bind_of_ok (attempt_ok _ _)]
  simp only [hempty, Bool.false_eq_true, if_false, hdir]
  rw [bind_of_ok (attempt_ok _ _), bind_of_ok (println_ok _ _), bind_of_ok (print_ok _ _), onOutput]
  simp only [Option.getD_some, hrun, downloadLines, List.append_assoc]

/-- What `download` checks before it opens the output file. -/
structure Opens (world : World Handle) (path out : Bytes) (m : Metainfo) (peers : List Bytes) :
    Prop where
  output : world.parentMissing out = false ∧ world.writable out = true
  torrent : ∃ content, world.fileAt path = some content ∧ fromFile content true = .value m
  tracker : getPeers world.api world.http Misc.sha1 m = .ok peers ∧ peers ≠ []

/-- The command behind `ofs.open`. -/
def intoOutput (world : World Handle) (rounds : Nat) (path out : Bytes) (m : Metainfo)
    (peers : List Bytes) : Command ExitCode := do
  downloadFile world rounds m peers
  print (ascii "Downloaded " ++ path ++ ascii " to " ++ out ++ ascii ".")
  return .success

theorem Opens.command {path out : Bytes} {m : Metainfo} {peers : List Bytes}
    (h : Opens world path out m peers) (rounds : Nat) :
    downloadFileCommand world rounds path out {} =
      intoOutput world rounds path out m peers ⟨[], some []⟩ := by
  obtain ⟨content, hpath, hm⟩ := h.torrent
  have hnotEmpty : peers.isEmpty = false := by simpa using h.tracker.2
  simp only [downloadFileCommand, hpath, h.output.1, Bool.false_eq_true, if_false]
  rw [bind_of_ok (readMetainfo_ok hm {})]
  simp only [h.tracker.1]
  rw [bind_of_ok (attempt_ok _ _)]
  simp only [hnotEmpty, h.output.2, Bool.not_true, Bool.false_eq_true, if_false]
  rw [bind_of_ok (openOutput_ok _)]
  rfl

/-- A download that comes to its end. -/
structure Succeeds (world : World Handle) (path out : Bytes) (store : Store) : Prop where
  dir : world.createDirForPieces = .ok ()
  returns : ∃ m hashes peers, Opens world path out m peers ∧ m.pieces = .ok hashes ∧
    DownloadFile.Returns Misc.sha1 world.makeAddress m (connections world peers)
      (world.shuffle hashes.length) world.pieceFiles [] store

/-- What the program leaves behind then. -/
def downloaded (world : World Handle) (path out : Bytes) (store : Store) : Terminal where
  stdout := downloadLines world ++ (ascii "Downloaded " ++ path ++ ascii " to " ++ out ++ ascii ".")
  outputFile := some store.ostream

theorem commandLine_download (world : World Handle) (rounds : Nat) (option out path : Bytes) :
    commandLine world rounds [ascii "download", option, out, path] =
      downloadFileCommand world rounds path out := rfl

theorem Succeeds.main {path out : Bytes} {store : Store} (h : Succeeds world path out store)
    (option : Bytes) : ∃ enough, ∀ rounds, enough ≤ rounds →
      main world rounds [ascii "download", option, out, path] =
        .exit .success (downloaded world path out store) := by
  obtain ⟨m, hashes, peers, hopens, hhashes, hreturns⟩ := h.returns
  obtain ⟨enough, hrun⟩ := downloadFile_of_returns hhashes h.dir hreturns
  refine ⟨enough, fun rounds hrounds => ?_⟩
  rw [Main.main, commandLine_download, hopens.command, intoOutput,
    bind_of_ok (hrun rounds hrounds []), bind_of_ok (print_ok _ _)]
  rfl

/-- A file with its torrent at `path`, and a swarm that seeds it: each connection
has what will be asked for in its place of the list. -/
structure Published (world : World Handle) (path file : Bytes) (size count : Nat) : Prop where
  torrent : ∃ content announce info pieces response peers, world.fileAt path = some content ∧
    TorrentText content announce info pieces file.length size ∧
    pieces.length = pieceHashLength * count ∧
    (∀ m, fromFile content true = .value m → Answers world m response) ∧
    ResponseText response peers ∧ peers ≠ [] ∧
    ∀ j, j < peers.length / peersChunkSizeBytes → Seeding (hex (Sha1.hash info).bytes)
      (pieceOf file size count)
      (share (peers.length / peersChunkSizeBytes) j (world.shuffle count).indexes) (world.socket j)
  addresses : UnderstandsAddresses world.makeAddress
  dir : world.createDirForPieces = .ok ()
  nonempty : file ≠ []
  positive : 0 < size
  fits : size ≤ 2 ^ 32
  count : count = (file.length + size - 1) / size

theorem connections_length (peers : List Bytes) : (connections world peers).length = peers.length :=
  List.length_mapIdx

theorem connections_getElem? {peers : List Bytes} {j : Nat} {peer : Bytes × Socket}
    (h : (connections world peers)[j]? = some peer) :
    ∃ text, peers[j]? = some text ∧ peer = (text, world.socket j) := by
  rw [connections, List.getElem?_mapIdx] at h
  obtain ⟨text, htext, hpeer⟩ := Option.map_eq_some_iff.mp h
  exact ⟨text, htext, hpeer.symm⟩

/-- The client loads the torrent and is told of peers that are honest. -/
theorem Published.swarm {path file : Bytes} {size count : Nat}
    (h : Published world path file size count) : ∃ content m hashes peers hash,
    world.fileAt path = some content ∧ fromFile content true = .value m ∧
    hashes.length = count ∧ Describes m hashes file size ∧ m.hash Misc.sha1 = .ok hash ∧
    getPeers world.api world.http Misc.sha1 m = .ok peers ∧ peers ≠ [] ∧
    ∀ (j : Nat) peer, (connections world peers)[j]? = some peer →
      Honest world.makeAddress hash (pieceOf file size hashes.length)
        (share (connections world peers).length j (world.shuffle hashes.length).indexes) peer := by
  obtain ⟨content, announce, info, pieces, response, peers, hpath, htorrent, hpieces, hanswers,
    hresponse, hpeers, hseeding⟩ := h.torrent
  obtain ⟨m, hm, -, hlength, hpieceLength, hbytes⟩ := htorrent.loaded
  have hcount : (chunk pieceHashLength pieces).length = count :=
    (chunk_exact pieceHashLength_pos hpieces).1
  have hhashes : m.pieces = .ok (chunk pieceHashLength pieces) :=
    (pieces_of_bytes hbytes).1 ⟨_, hpieces⟩
  have hlen := listed_length hresponse.whole
  refine ⟨content, m, chunk pieceHashLength pieces, listed peers, hex (Sha1.hash info).bytes, hpath, hm,
    hcount, ?_, htorrent.hash hm, (hanswers m hm).getPeers hresponse,
    listed_ne_nil hresponse.whole hpeers, fun j peer hpeer => ?_⟩
  · exact ⟨hhashes, hlength, hpieceLength, h.nonempty, h.positive, h.fits, hcount.trans h.count⟩
  · obtain ⟨text, htext, rfl⟩ := connections_getElem? hpeer
    refine ⟨h.addresses.listed hresponse.whole (List.mem_of_getElem? htext), ?_⟩
    rw [connections_length, hlen, hcount]
    exact hseeding j (hlen ▸ (List.getElem?_eq_some_iff.mp htext).1)

theorem Published.succeeds {path out file : Bytes} {size count : Nat}
    (h : Published world path file size count) (hparent : world.parentMissing out = false)
    (hwritable : world.writable out = true) : ∃ store, Succeeds world path out store ∧
    store.ostream = file.take ((count - 1) * size + file.length % size) := by
  obtain ⟨content, m, hashes, peers, hash, hpath, hm, rfl, hmeta, hhash, hgot, hpeers, hhonest⟩ :=
    h.swarm
  have hsome : connections world peers ≠ [] := fun hnil => by
    have hnone : (connections world peers).length = _ := connections_length _
    rw [hnil, List.length_nil] at hnone
    exact hpeers (List.eq_nil_of_length_eq_zero hnone.symm)
  have hdownload : ∃ store, DownloadFile.Returns Misc.sha1 world.makeAddress m
      (connections world peers) (world.shuffle hashes.length) world.pieceFiles [] store ∧
      store.ostream = [] ++ file.take ((hashes.length - 1) * size + file.length % size) :=
    honest_returns hmeta hhash hsome hhonest
  obtain ⟨store, hreturns, hout⟩ := hdownload
  have hopens : Opens world path out m peers :=
    ⟨⟨hparent, hwritable⟩, ⟨content, hpath, hm⟩, hgot, hpeers⟩
  exact ⟨store, ⟨h.dir, m, hashes, peers, hopens, hmeta.pieces, hreturns⟩, hout⟩

/-- `download` makes a published file, as far as `piece_len` takes its last piece
to go. -/
theorem download_makes_file {path out option file : Bytes} {size count : Nat}
    (h : Published world path file size count) (hparent : world.parentMissing out = false)
    (hwritable : world.writable out = true) :
    (∃ enough, ∀ rounds, enough ≤ rounds →
      main world rounds [ascii "download", option, out, path] = .exit .success
        { stdout := downloadLines world ++
            (ascii "Downloaded " ++ path ++ ascii " to " ++ out ++ ascii ".")
          outputFile := some (file.take ((count - 1) * size + file.length % size)) }) ∧
    (file.take ((count - 1) * size + file.length % size) = file ↔ ¬ size ∣ file.length) := by
  obtain ⟨store, hsucceeds, hout⟩ := h.succeeds hparent hwritable
  obtain ⟨enough, hmain⟩ := hsucceeds.main option
  obtain ⟨_, _, hashes, _, _, _, _, rfl, hmeta, _⟩ := h.swarm
  refine ⟨⟨enough, fun rounds hrounds => ?_⟩, hmeta.joined.2⟩
  rw [hmain rounds hrounds, downloaded, hout]

end

theorem responseText_lone : ResponseText (responseWith lonePeers) lonePeers where
  entries := ⟨_, [], [(ascii "peers", .str lonePeers)], (List.append_nil _).symm,
    derives_responseWith (by decide), rfl, rfl⟩
  binary := by decide +kernel
  whole := by decide

theorem announceUrl_textUrl {m : Metainfo} {digest : Bytes}
    (h : m.hash Misc.sha1 = .ok (hex digest)) :
    ∃ url, announceUrl textUrl Misc.sha1 m = .ok url := by
  simp only [announceUrl, h, bind, Except.bind, sha1HashToBytes_hex]
  exact ⟨_, rfl⟩

theorem published_lone : Published loneWorld (ascii "a.torrent") [7] 2 1 where
  torrent := by
    refine ⟨_, _, loneInfo, _, _, lonePeers, rfl, torrentText_lone, rfl, fun m hm => ?_,
      responseText_lone, by decide, fun j hj => ?_⟩
    · obtain ⟨url, hurl⟩ := announceUrl_textUrl (torrentText_lone.hash hm)
      exact ⟨url, _, hurl, rfl, rfl⟩
    · obtain rfl : j = 0 := Nat.lt_one_iff.mp hj
      have hshare : share (lonePeers.length / peersChunkSizeBytes) 0
          (loneWorld.shuffle 1).indexes = [0] := by
        decide +kernel
      rw [hshare]
      exact seeding_honestSocket (Sha1.hash loneInfo).bytes_length
  addresses _ _ _ _ := rfl
  dir := rfl
  nonempty := by decide
  positive := by decide
  fits := by decide
  count := by decide

theorem download_makes_file_lone :
    (∃ enough, ∀ rounds, enough ≤ rounds →
      main loneWorld rounds [ascii "download", ascii "-o", ascii "a", ascii "a.torrent"] =
        .exit .success
          { stdout := downloadLines loneWorld ++ (ascii "Downloaded " ++ ascii "a.torrent" ++ ascii " to " ++
              ascii "a" ++ ascii ".")
            outputFile := some ([7].take ((1 - 1) * 2 + 1 % 2)) }) ∧
    (([7] : Bytes).take ((1 - 1) * 2 + 1 % 2) = [7] ↔ ¬ 2 ∣ 1) :=
  @download_makes_file _ _ (ascii "a.torrent") (ascii "a") (ascii "-o") [7] 2 1 published_lone rfl rfl

end Bittorrent.Main
