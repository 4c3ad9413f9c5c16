import Bittorrent.Bencode.Exceptions
import Bittorrent.Client.DownloadPiece
import Bittorrent.Client.PeerHandshake
import Bittorrent.Client.Tracker
import Bittorrent.Misc.Checksum
import Bittorrent.Printed

/-! The commands of the program. Around them all is one handler for
`std::runtime_error`; an exception of another kind ends the program without an
exit code of its own. Of the log only the errors are seen, on the standard output. -/

namespace Bittorrent.Main

open Lib Lib.Bencode Lib.Decimal Lib.Exec Bencode Client Misc Net Torrent

inductive ExitCode where
  | success
  | fail
  deriving DecidableEq

/-- What a command leaves behind: the standard output, and the output file from
when it is opened. -/
structure Terminal where
  stdout : Bytes := []
  outputFile : Option Bytes := none
  deriving DecidableEq

abbrev Command := EStateM Exception Terminal

/-- What there is outside the program. The connections are in the order of the peers.
The logger makes a line of its own of an error, with the time; what the progress
bars print while the connections are set up, and from then on, is left open. -/
structure World (Handle : Type) where
  program : Bytes
  errorLine : Bytes → Bytes
  setupBars : Bytes
  downloadBars : Bytes
  fileAt : Bytes → Option Bytes
  parentMissing : Bytes → Bool
  writable : Bytes → Bool
  api : UrlApi Handle
  http : HttpClient
  curl : Curl
  makeAddress : Bytes → Except Exception Unit
  socket : Nat → Socket
  shuffle : (n : Nat) → Shuffled n
  createDirForPieces : Except Exception Unit
  pieceFiles : Nat → Option Bytes

def attempt {α : Type} : Except Exception α → Command α
  | .ok a => pure a
  | .error e => throw e

def print (text : Bytes) : Command Unit := modify fun t => { t with stdout := t.stdout ++ text }

def println (text : Bytes) : Command Unit := print (text ++ [10])

/-- `ofs.open`, which leaves an empty file. -/
def openOutput : Command Unit := modify fun t => { t with outputFile := some [] }

/-- A call that writes to the output file. -/
def onOutput (call : EStateM Exception Bytes Unit) : Command Unit := fun t =>
  match call (t.outputFile.getD []) with
  | .ok _ ostream => .ok () { t with outputFile := some ostream }
  | .error e ostream => .error e { t with outputFile := some ostream }

def readMetainfo (torrentContent : Bytes) : Command (Option Metainfo) :=
  match fromFile torrentContent true with
  | .value metainfo => pure (some metainfo)
  | .nullopt => pure none
  | .throws e => throw e

/-- The loop of `info`. -/
def printPieces : List Bytes → Command Unit
  | [] => pure ()
  | piece :: pieces => do
    println (hex piece)
    printPieces pieces

section
variable {Handle : Type} (world : World Handle)

/-- `spdlog::error` -/
def logError (message : Bytes) : Command Unit := print (world.errorLine message)

/-- What `EXPECTED` does when its condition does not hold. -/
def unexpected (message : Bytes) : Command ExitCode := do
  logError world message
  return .fail

def fileNotFound (path : Bytes) : Bytes := ascii "File not found: \"" ++ path ++ ascii "\""

/-- `path::parent_path` -/
def parentPath (path : Bytes) : Bytes :=
  let front := (path.reverse.dropWhile (· ≠ 47)).reverse
  let parent := (front.reverse.dropWhile (· = 47)).reverse
  if path.all (· = 47) then path
  else if parent = [] then front.take 1
  else parent

/-- The path it names is not the one that was looked for. -/
def pathNotFound (torrentFilePath : Bytes) : Bytes :=
  ascii "Path not found: \"" ++ parentPath torrentFilePath ++ ascii "\""

def decodeCommand (encodedValue : Bytes) : Command ExitCode :=
  match decodeBencodedValue encodedValue with
  | .throws e => throw e
  | .nullopt => unexpected world (ascii "Error while decoding: " ++ encodedValue)
  | .value (_, decodedValue) => do
    println (← attempt decodedValue.dump)
    return .success

def infoCommand (torrentFilePath : Bytes) : Command ExitCode := do
  let some torrentContent := world.fileAt torrentFilePath
    | unexpected world (fileNotFound torrentFilePath)
  let some metainfo ← readMetainfo torrentContent
    | unexpected world (ascii "Error while file decoding: " ++ torrentFilePath)
  let hash ← attempt (metainfo.hash Misc.sha1)
  println (ascii "Tracker URL: " ++ metainfo.announce ++ ascii "\nLength: " ++
    printInt metainfo.length ++ ascii "\nInfo Hash: " ++ hash ++ ascii "\nPiece Length: " ++
    printInt metainfo.pieceLength)
  let pieces ← attempt metainfo.pieces
  println (ascii "Piece Hashes:")
  printPieces pieces
  return .success

/-- The dump only goes to the log, at a level that is not shown. -/
def dumpCommand (torrentFilePath : Bytes) : Command ExitCode := do
  let some torrentContent := world.fileAt torrentFilePath
    | unexpected world (fileNotFound torrentFilePath)
  let some _ ← readMetainfo torrentContent
    | unexpected world (ascii "Error while file decoding: " ++ torrentFilePath)
  return .success

def peersCommand (torrentFilePath : Bytes) : Command ExitCode := do
  let some torrentContent := world.fileAt torrentFilePath
    | unexpected world (fileNotFound torrentFilePath)
  let some metainfo ← readMetainfo torrentContent
    | unexpected world (ascii "Error while file decoding: " ++ torrentFilePath)
  let peers ← attempt (getPeers world.api world.http Misc.sha1 metainfo)
  println ([10].intercalate peers)
  return .success

def peerHandshakeCommand (torrentFilePath peerIpPort : Bytes) : Command ExitCode := do
  let some torrentContent := world.fileAt torrentFilePath
    | unexpected world (fileNotFound torrentFilePath)
  let some metainfo ← readMetainfo torrentContent
    | unexpected world (ascii "Error while file decoding: " ++ torrentFilePath)
  let (peerIp, peerPort) ← attempt (parseIpPort peerIpPort)
  let peerId ← attempt (peerHandshake Misc.sha1 world.curl peerIp peerPort metainfo)
  println (ascii "Peer ID: " ++ peerId)
  return .success

def downloadPieceCommand (torrentFilePath outputFilePath : Bytes) (pieceIdx : Nat) :
    Command ExitCode := do
  let some torrentContent := world.fileAt torrentFilePath
    | unexpected world (fileNotFound torrentFilePath)
  if world.parentMissing outputFilePath then
    return ← unexpected world (pathNotFound torrentFilePath)
  let some metainfo ← readMetainfo torrentContent
    | unexpected world (ascii "Error while torrent file decoding: " ++ torrentFilePath)
  let peer :: _ ← attempt (getPeers world.api world.http Misc.sha1 metainfo)
    | unexpected world (ascii "No peers returned from server: " ++ metainfo.announce)
  let (peerIp, peerPort) ← attempt (parseIpPort peer)
  if !world.writable outputFilePath then
    return ← unexpected world (ascii "Can't write to file " ++ outputFilePath)
  openOutput
  onOutput (clientDownloadPiece Misc.sha1 world.makeAddress metainfo peerIp peerPort pieceIdx
    (world.socket 0))
  print (ascii "Piece " ++ Decimal.print pieceIdx ++ ascii " downloaded to " ++ outputFilePath ++
    ascii ".")
  return .success

/-! ## Downloading the file -/

instance {B : Type} : DecidablePred (Running (B := B)) := fun _ => inferInstanceAs (Decidable (_ ≠ _))

/-- The loop of `download_file` within a number of rounds, and what it gathers. -/
def downloadPieces (rounds : Nat) {n : Nat} (shuffled : Shuffled n)
    (workers : List (Worker PieceWorker)) : EStateM Exception Bytes Unit := fun ostream =>
  match whileLoop Running (loopBody (pieceWorker Misc.sha1)) .outOfFuel rounds
      (.start shuffled workers world.pieceFiles ostream) with
  | .error e d => .error e d.store.ostream
  | .ok _ d =>
    match gatherPieces n d.store with
    | .error e store => .error e store.ostream
    | .ok _ store => .ok () store.ostream

def connections (peers : List Bytes) : List (Bytes × Socket) :=
  peers.mapIdx fun i peer => (peer, world.socket i)

def downloadFile (rounds : Nat) (metainfo : Metainfo) (peers : List Bytes) : Command Unit := do
  let pieces ← attempt metainfo.pieces
  println (ascii "Setup connection...")
  print world.setupBars
  let workers ← attempt (setupWorkers Misc.sha1 world.makeAddress metainfo (connections world peers))
  if workers.isEmpty then throw (.runtimeError "No peers available!")
  attempt world.createDirForPieces
  println (ascii "Downloading...")
  print world.downloadBars
  onOutput (downloadPieces world rounds (world.shuffle pieces.length) workers)

def downloadFileCommand (rounds : Nat) (torrentFilePath outputFilePath : Bytes) :
    Command ExitCode := do
  let some torrentContent := world.fileAt torrentFilePath
    | unexpected world (fileNotFound torrentFilePath)
  if world.parentMissing outputFilePath then
    return ← unexpected world (pathNotFound torrentFilePath)
  let some metainfo ← readMetainfo torrentContent
    | unexpected world (ascii "Error while torrent file decoding: " ++ torrentFilePath)
  let peers ← attempt (getPeers world.api world.http Misc.sha1 metainfo)
  if peers.isEmpty then
    return ← unexpected world (ascii "No peers returned from server: " ++ metainfo.announce)
  if !world.writable outputFilePath then
    return ← unexpected world (ascii "Can't write to file " ++ outputFilePath)
  openOutput
  downloadFile world rounds metainfo peers
  print (ascii "Downloaded " ++ torrentFilePath ++ ascii " to " ++ outputFilePath ++ ascii ".")
  return .success

/-! ## The command line -/

/-- `std::stoull`: a numeral behind blanks and a sign, which negates modulo 2^64;
what follows is left alone. Out of range is an exception that no handler tells
from the other. -/
def stoull (str : Bytes) : Except Exception Nat :=
  let s := str.dropWhile isSpace
  let (neg, s) := if s.head? = some 45 then (true, s.drop 1)
    else (false, if s.head? = some 43 then s.drop 1 else s)
  let digits := s.takeWhile isDigit
  if digits = [] then .error (.invalidArgument "stoull")
  else if 2 ^ 64 ≤ value digits then .error (.invalidArgument "stoull")
  else .ok (if neg then (2 ^ 64 - value digits) % 2 ^ 64 else value digits)

/-- What the commands are given, as the usage of the program lists it. -/
def usages : List String :=
  [" decode <encoded_value>",
    " info <torrent_file_path>",
    " dump <torrent_file_path>",
    " peers <torrent_file_path>",
    " handshake <torrent_file_path> <peer_ip>:<peer_port>",
    " download_piece -o <output_file_path> <torrent_file_path> <piece_idx>",
    " download -o <output_file_path> <torrent_file_path>"]

def logUsages : List String → Command Unit
  | [] => pure ()
  | usage :: usages => do
    logError world (ascii "  " ++ world.program ++ ascii usage)
    logUsages usages

/-- A command that was given too little or too much. -/
def misused (usage : String) : Command ExitCode :=
  unexpected world (ascii "Usage: " ++ world.program ++ ascii usage)

/-- `argv` behind the name of the program. -/
def commandLine (rounds : Nat) (argv : List Bytes) : Command ExitCode :=
  match argv with
  | [] => do
    logError world (ascii "Usage:")
    logUsages world usages
    return .fail
  | command :: args =>
    if command = ascii "test" then pure .success
    else if command = ascii "decode" then
      match args with
      | [encodedValue] => decodeCommand world encodedValue
      | _ => misused world " info <encoded_value>"
    else if command = ascii "info" then
      match args with
      | [torrentFilePath] => infoCommand world torrentFilePath
      | _ => misused world " info <torrent_file_path>"
    else if command = ascii "dump" then
      match args with
      | [torrentFilePath] => dumpCommand world torrentFilePath
      | _ => misused world " dump <torrent_file_path>"
    else if command = ascii "peers" then
      match args with
      | [torrentFilePath] => peersCommand world torrentFilePath
      | _ => misused world " peers <torrent_file_path>"
    else if command = ascii "handshake" then
      match args with
      | [torrentFilePath, peerIpPort] => peerHandshakeCommand world torrentFilePath peerIpPort
      | _ => misused world " handshake <torrent_file_path> <peer_ip>:<peer_port>"
    else if command = ascii "download_piece" then
      match args with
      | [_, outputFilePath, torrentFilePath, pieceIdx] => do
        downloadPieceCommand world torrentFilePath outputFilePath (← attempt (stoull pieceIdx))
      | _ => misused world " download_piece -o <output_file_path> <torrent_file_path> <piece_idx>"
    else if command = ascii "download" then
      match args with
      | [_, outputFilePath, torrentFilePath] =>
        downloadFileCommand world rounds torrentFilePath outputFilePath
      | _ => misused world " download -o <output_file_path> <torrent_file_path>"
    else unexpected world (ascii "Unknown command: \"" ++ command ++ ascii "\"")

/-- How the program ends, if it has not just gone through its rounds: with an exit
code, by an exception that no one catches, or in behaviour that is undefined. -/
inductive End where
  | exit (code : ExitCode) (terminal : Terminal)
  | uncaught (e : Exception)
  | undefined (what : String)
  | running

/-- `catch (std::runtime_error)` -/
def caughtByMain (t : Terminal) : Exception → End
  | .runtimeError what => .exit .fail { t with stdout := t.stdout ++ world.errorLine (ascii what) }
  | .systemError what => .exit .fail { t with stdout := t.stdout ++ world.errorLine (ascii what) }
  | .undefined what => .undefined what
  | .outOfFuel => .running
  | e => .uncaught e

def main (rounds : Nat) (argv : List Bytes) : End :=
  match commandLine world rounds argv {} with
  | .ok code t => .exit code t
  | .error e t => caughtByMain world t e

end

section
variable {Handle : Type} {world : World Handle} {rounds : Nat}

/-! ## What `decode` prints -/

theorem decodes_iff {s : Bytes} : (∃ d, decodeBencodedValue s = .value d) ↔ ∃ r, Reads .value s r := by
  constructor
  · rintro ⟨d, hd⟩
    exact ⟨_, (explained s).value d hd⟩
  · rintro ⟨r, hr⟩
    obtain ⟨e, v, hv, _⟩ := hr.readBy
    exact ⟨_, hv⟩

theorem throws_iff {s : Bytes} : (∃ e, decodeBencodedValue s = .throws e) ↔ BinaryKey .value s := by
  constructor
  · rintro ⟨e, he⟩
    exact (explained s).throws e he
  · exact fun h => ⟨_, h.thrownBy⟩

theorem commandLine_decode (world : World Handle) (rounds : Nat) (s : Bytes) :
    commandLine world rounds [ascii "decode", s] = decodeCommand world s := rfl

theorem main_decode_value {s text : Bytes} {e : EncodedValue} {v : Json}
    (h : decodeBencodedValue s = .value (e, v)) (htext : v.dump = .ok text) :
    main world rounds [ascii "decode", s] = .exit .success { stdout := text ++ [10] } := by
  rw [main, commandLine_decode, decodeCommand, h]
  simp only [htext]
  rfl

theorem main_decode_nullopt {s : Bytes} (h : decodeBencodedValue s = .nullopt) :
    main world rounds [ascii "decode", s] =
      .exit .fail { stdout := world.errorLine (ascii "Error while decoding: " ++ s) } := by
  rw [main, commandLine_decode, decodeCommand, h]
  rfl

/-- The exception is not a `std::runtime_error`. -/
theorem main_decode_throws {s : Bytes} {e : Exception} (h : decodeBencodedValue s = .throws e) :
    main world rounds [ascii "decode", s] = .uncaught (.typeError 302) := by
  have hbinary : decodeBencodedValue s = .throws (.typeError 302) := (throws_iff.mp ⟨e, h⟩).thrownBy
  rw [main, commandLine_decode, decodeCommand, hbinary]
  rfl

theorem main_decode_success_iff {s : Bytes} {t : Terminal} :
    main world rounds [ascii "decode", s] = .exit .success t ↔
      ∃ e v text, decodeBencodedValue s = .value (e, v) ∧ v.dump = .ok text ∧
        t = { stdout := text ++ [10] } := by
  constructor
  · intro h
    cases hd : decodeBencodedValue s with
    | value d =>
      obtain ⟨text, htext⟩ := decode_dump hd
      refine ⟨d.1, d.2, text, rfl, htext, ?_⟩
      exact (End.exit.inj (h.symm.trans (main_decode_value hd htext))).2
    | nullopt => cases (main_decode_nullopt hd).symm.trans h
    | throws e => cases (main_decode_throws hd).symm.trans h
  · rintro ⟨e, v, text, hd, htext, rfl⟩
    exact main_decode_value hd htext

/-- The command prints a decoded value on one line, and no other value has that
line. A text that is refused is named in the one line of the log, and the exit
code is that of a failure; an entry whose key is not UTF-8 ends the whole program. -/
theorem decode_prints (world : World Handle) (rounds : Nat) (s : Bytes) :
    let ended s := main world rounds [ascii "decode", s]
    ((∃ t, ended s = .exit .success t) ↔ ∃ r, Reads .value s r) ∧
    ((∃ e, ended s = .uncaught e) ↔ BinaryKey .value s) ∧
    (ended s = .exit .fail { stdout := world.errorLine (ascii "Error while decoding: " ++ s) } ↔
      (¬ ∃ r, Reads .value s r) ∧ ¬ BinaryKey .value s) ∧
    ∀ s' t, ended s = .exit .success t → (ended s' = .exit .success t ↔
      ∃ e e' v, decodeBencodedValue s = .value (e, v) ∧ decodeBencodedValue s' = .value (e', v)) := by
  intro ended
  rw [← decodes_iff, ← throws_iff]
  refine ⟨⟨?_, ?_⟩, ⟨?_, ?_⟩, ?_, fun s' t h => ⟨fun h' => ?_, ?_⟩⟩
  · rintro ⟨t, h⟩
    obtain ⟨e, v, _, hd, _⟩ := main_decode_success_iff.mp h
    exact ⟨_, hd⟩
  · rintro ⟨⟨e, v⟩, hd⟩
    obtain ⟨text, htext⟩ := decode_dump hd
    exact ⟨_, main_decode_value hd htext⟩
  · rintro ⟨e, h⟩
    cases hd : decodeBencodedValue s with
    | value d =>
      obtain ⟨text, htext⟩ := decode_dump (e := d.1) hd
      cases (main_decode_value (e := d.1) hd htext).symm.trans h
    | nullopt => cases (main_decode_nullopt hd).symm.trans h
    | throws e => exact ⟨e, rfl⟩
  · rintro ⟨e, hd⟩
    exact ⟨_, main_decode_throws hd⟩
  · cases hd : decodeBencodedValue s with
    | value d =>
      obtain ⟨text, htext⟩ := decode_dump (e := d.1) hd
      simp [ended, main_decode_value (e := d.1) hd htext]
    | nullopt => simp [ended, main_decode_nullopt hd]
    | throws e => simp [ended, main_decode_throws hd]
  · obtain ⟨e, v, text, hd, htext, rfl⟩ := main_decode_success_iff.mp h
    obtain ⟨e', v', text', hd', htext', ht⟩ := main_decode_success_iff.mp h'
    have hsame : text = text' := List.append_cancel_right (Terminal.mk.inj ht).1
    have hv : Bencodable (fun _ => True) v := decode_bencodable (fun _ _ => trivial) hd
    have hv' : Bencodable (fun _ => True) v' := decode_bencodable (fun _ _ => trivial) hd'
    obtain rfl : v = v' := Json.dump_injective hv hv' htext (hsame ▸ htext')
    exact ⟨e, e', v, hd, hd'⟩
  · rintro ⟨e, e', v, hd, hd'⟩
    obtain ⟨_, v₁, text, hd₁, htext, rfl⟩ := main_decode_success_iff.mp h
    obtain rfl : v₁ = v := (Prod.mk.inj (Outcome.value.inj (hd₁.symm.trans hd))).2
    exact main_decode_value hd' htext

end

end Bittorrent.Main
