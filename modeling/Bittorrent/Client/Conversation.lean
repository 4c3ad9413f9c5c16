import Bittorrent.Client.BlockLoop
import Bittorrent.Client.Choking
import Bittorrent.Misc.Checksum
import Bittorrent.Proto.Handshake

/-! What a worker says to its peer. `Conversation` is the client's side of the
protocol, told by what may follow what; whatever the peer does and however the
calls of the worker end, its events are one (`conversation_of_file`). A request
so comes after an "interested" that was answered, and that after a handshake
whose answer carried the info hash. -/

namespace Bittorrent.Client

open Lib.Bencode Lib.Exec Bencode Misc Net Proto Torrent

/-- How far the two have come on the connection in use. -/
inductive Phase where
  | closed
  | greeting
  | accepted
  | interested
  | admitted
  deriving DecidableEq

/-- The answer to a handshake, with the info hash in it. -/
def Accepts (hash : Bytes) (e : Event) : Prop :=
  ∃ asked got answer, e = .received .handshake asked got ∧ unpackHandshake got = .ok answer ∧
    answer.infoHash = hash

/-- The answer to "interested" that lets the worker in. -/
def Admits (e : Event) : Prop :=
  ∃ asked got header, e = .received .interested asked got ∧ unpackMsgHeader got = .ok header ∧
    (header.id = .unchoke ∨ header.id = .have)

/-- The events of a client that keeps to the protocol, and the phase they lead
to; `hello` is its handshake. -/
inductive Conversation (hello hash : Bytes) : Phase → List Event → Prop where
  | start : Conversation hello hash .closed []
  | silent {phase : Phase} {es : List Event} {e : Event} (h : Conversation hello hash phase es)
      (he : ∀ msg, e ≠ .sent msg) : Conversation hello hash phase (es ++ [e])
  -- A connection that could not be set up is set up again from the start.
  | greet {phase : Phase} {es : List Event} (h : Conversation hello hash phase es)
      (hphase : phase ≠ .admitted) : Conversation hello hash .greeting (es ++ [.sent hello])
  | accept {es : List Event} {e : Event} (h : Conversation hello hash .greeting es)
      (he : Accepts hash e) : Conversation hello hash .accepted (es ++ [e])
  | interest {es : List Event} (h : Conversation hello hash .accepted es) :
      Conversation hello hash .interested (es ++ [.sent packInterestedMsg])
  | enter {es : List Event} {e : Event} (h : Conversation hello hash .interested es)
      (he : Admits e) : Conversation hello hash .admitted (es ++ [e])
  | request {es : List Event} {pieceIdx begin length : UInt32}
      (h : Conversation hello hash .admitted es) (hlength : length.toNat ≤ maxBlockLen) :
      Conversation hello hash .admitted (es ++ [.sent (packRequestMsg pieceIdx begin length)])

/-! ## What the protocol promises -/

section
variable {hello hash : Bytes}

/-- These events happened in this order since the last handshake. -/
def Marked (hello : Bytes) (marks es : List Event) : Prop :=
  ∃ earlier since, es = earlier ++ .sent hello :: since ∧ .sent hello ∉ since ∧ marks.Sublist since

theorem Marked.fresh (es : List Event) : Marked hello [] (es ++ [.sent hello]) :=
  ⟨es, [], rfl, nofun, .slnil⟩

theorem Marked.mark {marks es : List Event} {e : Event} (h : Marked hello marks es)
    (he : e ≠ .sent hello) : Marked hello (marks ++ [e]) (es ++ [e]) := by
  obtain ⟨earlier, since, rfl, hnot, hsub⟩ := h
  refine ⟨earlier, since ++ [e], by simp, fun hmem => ?_, hsub.append_right [e]⟩
  rcases List.mem_append.mp hmem with hmem | hmem
  · exact hnot hmem
  · exact he (List.mem_singleton.mp hmem).symm

theorem Marked.pass {marks es : List Event} {e : Event} (h : Marked hello marks es)
    (he : e ≠ .sent hello) : Marked hello marks (es ++ [e]) := by
  obtain ⟨earlier, since, heq, hnot, hsub⟩ := h.mark he
  exact ⟨earlier, since, heq, hnot, (List.sublist_append_left marks [e]).trans hsub⟩

/-- A handshake that is neither of the other two messages. -/
structure Distinct (hello : Bytes) : Prop where
  interested : hello ≠ packInterestedMsg
  request : ¬ IsRequest hello

/-- What has happened on the connection when a phase is reached. -/
def Phase.Reached (hello hash : Bytes) (es : List Event) : Phase → Prop
  | .closed => True
  | .greeting => Marked hello [] es
  | .accepted => ∃ e, Accepts hash e ∧ Marked hello [e] es
  | .interested => ∃ e, Accepts hash e ∧ Marked hello [e, .sent packInterestedMsg] es
  | .admitted => ∃ e e', Accepts hash e ∧ Admits e' ∧
      Marked hello [e, .sent packInterestedMsg, e'] es

theorem Phase.Reached.pass {phase : Phase} {es : List Event} {e : Event}
    (h : phase.Reached hello hash es) (he : e ≠ .sent hello) :
    phase.Reached hello hash (es ++ [e]) := by
  cases phase with
  | closed => trivial
  | greeting => exact Marked.pass h he
  | accepted =>
    obtain ⟨a, ha, h⟩ := h
    exact ⟨a, ha, h.pass he⟩
  | interested =>
    obtain ⟨a, ha, h⟩ := h
    exact ⟨a, ha, h.pass he⟩
  | admitted =>
    obtain ⟨a, b, ha, hb, h⟩ := h
    exact ⟨a, b, ha, hb, h.pass he⟩

theorem Conversation.reached (hd : Distinct hello) {phase : Phase} {es : List Event}
    (h : Conversation hello hash phase es) : phase.Reached hello hash es := by
  induction h with
  | start => trivial
  | silent _ he ih => exact ih.pass (he hello)
  | greet _ _ _ => exact Marked.fresh _
  | accept _ he ih =>
    obtain ⟨asked, got, answer, rfl, hanswer⟩ := he
    exact ⟨_, ⟨asked, got, answer, rfl, hanswer⟩, Marked.mark ih nofun⟩
  | interest _ ih =>
    obtain ⟨a, ha, ih⟩ := ih
    exact ⟨a, ha, ih.mark fun he => hd.interested (Event.sent.inj he).symm⟩
  | enter _ he ih =>
    obtain ⟨a, ha, ih⟩ := ih
    obtain ⟨asked, got, header, rfl, hheader⟩ := he
    exact ⟨a, _, ha, ⟨asked, got, header, rfl, hheader⟩, ih.mark nofun⟩
  | @request es pieceIdx begin length _ _ ih =>
    refine ih.pass fun he => hd.request ?_
    exact ⟨pieceIdx, begin, length, (Event.sent.inj he).symm⟩

/-- What came before an event was a conversation too, with the worker admitted
if the event is a request. -/
theorem Conversation.before (hd : Distinct hello) {phase : Phase} {es : List Event} {e : Event}
    (h : Conversation hello hash phase (es ++ [e])) :
    ∃ phase', Conversation hello hash phase' es ∧
      ∀ msg, e = .sent msg → IsRequest msg → phase' = .admitted := by
  generalize hes : es ++ [e] = es' at h
  have hlast : ∀ {es₁ : List Event} {e₁ : Event}, es ++ [e] = es₁ ++ [e₁] → es = es₁ ∧ e = e₁ :=
    fun h => ⟨(List.append_inj' h rfl).1, List.singleton_inj.mp (List.append_inj' h rfl).2⟩
  cases h with
  | start => simp at hes
  | silent h he =>
    obtain ⟨rfl, rfl⟩ := hlast hes
    exact ⟨_, h, fun msg hmsg => absurd hmsg (he msg)⟩
  | greet h hphase =>
    obtain ⟨rfl, rfl⟩ := hlast hes
    exact ⟨_, h, fun msg hmsg hreq => absurd (Event.sent.inj hmsg ▸ hreq) hd.request⟩
  | accept h he =>
    obtain ⟨rfl, rfl⟩ := hlast hes
    obtain ⟨asked, got, answer, rfl, _⟩ := he
    exact ⟨_, h, nofun⟩
  | interest h =>
    obtain ⟨rfl, rfl⟩ := hlast hes
    exact ⟨_, h, fun msg hmsg hreq => absurd (Event.sent.inj hmsg ▸ hreq) not_isRequest_interested⟩
  | enter h he =>
    obtain ⟨rfl, rfl⟩ := hlast hes
    obtain ⟨asked, got, header, rfl, _⟩ := he
    exact ⟨_, h, nofun⟩
  | request h hlength =>
    obtain ⟨rfl, rfl⟩ := hlast hes
    exact ⟨_, h, fun _ _ _ => rfl⟩

end

/-- What a worker says first, if it can hash the info dictionary. -/
structure Hello (sha1 : Bytes → Digest) (hello hash : Bytes) (w : PieceWorker) : Prop where
  infoHash : w.metainfo.hash sha1 = .ok hash
  packed : packHandshake { infoHash := hash, peerId := ascii "00112233445566778899" } = .ok hello

/-- The conversation of a worker has come to a phase. -/
structure Speaks (sha1 : Bytes → Digest) (hello hash : Bytes) (phase : Phase) (w : PieceWorker) :
    Prop where
  opener : Hello sha1 hello hash w
  log : Conversation hello hash phase w.log

/-- It has come to some phase in which the worker is not admitted. -/
def Outside (sha1 : Bytes → Digest) (hello hash : Bytes) (w : PieceWorker) : Prop :=
  ∃ phase, phase ≠ .admitted ∧ Speaks sha1 hello hash phase w

variable {sha1 : Bytes → Digest} {hello hash : Bytes} {phase : Phase} {w w' : PieceWorker}

theorem Speaks.hear (h : Speaks sha1 hello hash phase w) (site : Site) (length : Nat) :
    Speaks sha1 hello hash phase (w.afterRead site length) :=
  ⟨⟨h.opener.infoHash, h.opener.packed⟩, h.log.silent nofun⟩

theorem Outside.hear (h : Outside sha1 hello hash w) (site : Site) (length : Nat) :
    Outside sha1 hello hash (w.afterRead site length) := by
  obtain ⟨phase, hphase, h⟩ := h
  exact ⟨phase, hphase, h.hear site length⟩

theorem Speaks.outside (h : Speaks sha1 hello hash phase w) (hphase : phase ≠ .admitted) :
    Outside sha1 hello hash w := ⟨phase, hphase, h⟩

/-! ## Exchanges that say something -/

/-- An exchange whose message brings the conversation on: it was sent, or there
was an error before it could be. -/
theorem triple_exchange_says {P S : PieceWorker → Prop}
    {Q : Except ErrorCode Bytes → PieceWorker → Prop} {E : Exception → PieceWorker → Prop}
    {site : Site} {request : Bytes} {length : Nat} (hsend : ∀ w, P w → S (w.afterSend request))
    (hread : ∀ w, S w → Q (w.socket.read length).1 (w.afterRead site length))
    (hunsent : ∀ w e, P w → Q (.error e) w) (hunread : ∀ w e, S w → Q (.error e) w) :
    Triple P (exchange site request length) Q E := by
  refine .reading fun w _ => ?_
  refine .ite (fun _ => .pure _ fun w hw => hunsent w _ hw) fun _ => ?_
  refine .bind (R := fun _ => S) (fun w hw => hsend w hw) fun written => ?_
  cases written with
  | none => exact fun w hw => hread w hw
  | some e => exact .pure _ fun w hw => hunread w e hw

/-- What is known when an answer may have been read at `site`: it is the last
event of a conversation in `phase`. -/
def Replied (sha1 : Bytes → Digest) (hello hash : Bytes) (phase : Phase) (site : Site)
    (result : Except ErrorCode Bytes) (w : PieceWorker) : Prop :=
  Outside sha1 hello hash w ∧ Hello sha1 hello hash w ∧ ∀ got, result = .ok got →
    ∃ es asked, w.log = es ++ [.received site asked got] ∧ Conversation hello hash phase es

theorem Speaks.replied (h : Speaks sha1 hello hash phase w) (hphase : phase ≠ .admitted)
    (site : Site) (length : Nat) :
    Replied sha1 hello hash phase site (w.socket.read length).1 (w.afterRead site length) := by
  refine ⟨(h.hear site length).outside hphase, (h.hear site length).opener, fun got hgot => ?_⟩
  obtain ⟨rfl, _⟩ := Socket.read_ok hgot
  exact ⟨w.log, length, rfl, h.log⟩

theorem Outside.unreplied (h : Outside sha1 hello hash w) (phase : Phase) (site : Site)
    (e : ErrorCode) : Replied sha1 hello hash phase site (.error e) w := by
  obtain ⟨phase', hphase, h⟩ := h
  exact ⟨h.outside hphase, h.opener, nofun⟩

/-- The message brings the worker from one phase to the next, and an answer to it is read. -/
theorem replied_exchange {site : Site} {request : Bytes} {length : Nat} {phase' : Phase}
    {P : PieceWorker → Prop} {E : Exception → PieceWorker → Prop}
    (hP : ∀ w, P w → Outside sha1 hello hash w) (hphase' : phase' ≠ .admitted)
    (hsend : ∀ w, P w → Speaks sha1 hello hash phase' (w.afterSend request)) :
    Triple P (exchange site request length) (Replied sha1 hello hash phase' site) E :=
  triple_exchange_says (S := Speaks sha1 hello hash phase') hsend
    (fun _ hw => hw.replied hphase' site length) (fun _ e hw => (hP _ hw).unreplied phase' site e)
    fun _ e hw => (hw.outside hphase').unreplied phase' site e

/-! ## Setting up -/

theorem triple_infoHash {P : PieceWorker → Prop} (hP : ∀ w, P w → Hello sha1 hello hash w) :
    Triple P (infoHash sha1) (fun a w => P w ∧ a = hash) (fun _ => P) :=
  .intro (fun w a w' hw h => by
    obtain ⟨ha, rfl⟩ := infoHash_ok h
    exact ⟨hw, Except.ok.inj (ha.symm.trans (hP _ hw).infoHash)⟩)
    fun _ _ _ hw h => (keeps_infoHash sha1).error hw h

theorem Outside.opener (h : Outside sha1 hello hash w) : Hello sha1 hello hash w := by
  obtain ⟨_, _, h⟩ := h
  exact h.opener

/-- A handshake that returns is one that was accepted. -/
theorem speaks_doHandshake : Triple (Outside sha1 hello hash) (doHandshake sha1)
    (fun _ => Speaks sha1 hello hash .accepted) (fun _ => Outside sha1 hello hash) := by
  refine .reading fun w hw => (keeps_throwIf _ _).bind fun _ => ?_
  refine (triple_infoHash fun _ h => h.opener).bind fun infoHash => ?_
  refine ((triple_orThrow _ _).conseq (fun _ h => h) (fun _ _ h => h) fun _ _ h => h.1).bind
    fun handshakeMsg => ?_
  have hexchange : Triple (fun w => Outside sha1 hello hash w ∧ handshakeMsg = hello)
      (exchange .handshake handshakeMsg handshakeMsg.length)
      (Replied sha1 hello hash .greeting .handshake) fun _ => Outside sha1 hello hash := by
    refine replied_exchange (fun _ h => h.1) (by decide) fun w hw => ?_
    obtain ⟨⟨phase, hphase, h⟩, rfl⟩ := hw
    exact ⟨⟨h.opener.infoHash, h.opener.packed⟩, h.log.greet hphase⟩
  refine (hexchange.conseq (fun w hw => ⟨hw.1.1, ?_⟩) (fun _ _ h => h) fun _ _ h => h).bind
    fun result => ?_
  · obtain ⟨⟨h, rfl⟩, hpacked⟩ := hw
    exact Except.ok.inj (hpacked.symm.trans h.opener.packed)
  refine ((triple_orThrow _ result).conseq (fun _ h => h) (fun _ _ h => h) fun _ _ h => h.1).bind
    fun got => ?_
  refine ((triple_orThrow _ (unpackHandshake got)).conseq (fun _ h => h) (fun _ _ h => h)
    fun _ _ h => h.1.1).bind fun answer => ?_
  refine ((triple_infoHash fun _ h => h.1.1.2.1).conseq (fun _ h => h) (fun _ _ h => h)
    fun _ _ h => h.1.1.1).bind fun expected => ?_
  refine .ite (fun _ => .throw _ fun _ h => h.1.1.1.1) fun hsame => .pure _ fun w hw => ?_
  obtain ⟨⟨⟨⟨_, hopener, hlast⟩, rfl⟩, hanswer⟩, rfl⟩ := hw
  obtain ⟨es, asked, hlog, h⟩ := hlast got rfl
  exact ⟨hopener, hlog ▸ h.accept ⟨asked, got, answer, rfl, hanswer, Decidable.not_not.mp hsame⟩⟩

/-- A property that survives reads survives what only listens. -/
structure Hears (I : PieceWorker → Prop) : Prop where
  read : ∀ w site length, I w → I (w.afterRead site length)
  havePieceIdx : ∀ w pieceIdx, I w → I { w with havePieceIdx := pieceIdx }

section
variable {I : PieceWorker → Prop}

theorem Hears.keeps_read (hI : Hears I) (site : Site) (length : Nat) :
    Keeps I (Client.read site length) := fun w hw => hI.read w site length hw

theorem Hears.keeps_haveOf (hI : Hears I) (site : Site) (bodyLength : Nat) :
    Keeps I (haveOf site bodyLength) :=
  (hI.keeps_read site bodyLength).bind fun _ => (keeps_orThrow _ _).bind fun _ => keeps_orThrow _ _

theorem Hears.keeps_doBitfieldOrUnchoke (hI : Hears I) : Keeps I doBitfieldOrUnchoke := by
  refine (hI.keeps_read _ _).bind fun _ => (keeps_headerOf _ _).bind fun answer => ?_
  refine .ite (fun _ => ?_) fun _ => .ite (fun _ => .pure _ fun _ h => h) fun _ => .throw _ fun _ h => h
  exact (hI.keeps_read _ _).bind fun _ => .bind (keeps_orThrow _ _) fun _ => .pure _ fun _ h => h

theorem Hears.keeps_waitHave (hI : Hears I) : Keeps I waitHave := by
  refine (hI.keeps_read _ _).bind fun result => .ite (fun _ => .pure _ fun _ h => h) fun _ => ?_
  refine (keeps_headerOf _ _).bind fun response => .ite (fun _ => ?_) fun _ => ?_
  · refine (hI.keeps_haveOf _ _).bind fun msg => ?_
    exact .bind (.modify fun w hw => hI.havePieceIdx w _ hw) fun _ => .pure _ fun _ h => h
  · exact (keeps_throwIf _ _).bind fun _ => .pure _ fun _ h => h

end

theorem Speaks.of_log (h : Speaks sha1 hello hash phase w) (hm : w'.metainfo = w.metainfo)
    (hlog : w'.log = w.log) : Speaks sha1 hello hash phase w' :=
  ⟨⟨hm ▸ h.opener.infoHash, h.opener.packed⟩, hlog ▸ h.log⟩

theorem Outside.of_log (h : Outside sha1 hello hash w) (hm : w'.metainfo = w.metainfo)
    (hlog : w'.log = w.log) : Outside sha1 hello hash w' := by
  obtain ⟨phase, hphase, h⟩ := h
  exact (h.of_log hm hlog).outside hphase

theorem hears_speaks : Hears (Speaks sha1 hello hash phase) :=
  ⟨fun _ site length h => h.hear site length, fun _ _ h => h.of_log rfl rfl⟩

/-- An answer to "interested" lets the worker in, or leaves it outside. -/
def Heeded (sha1 : Bytes → Digest) (hello hash : Bytes) (header : MsgHeader) (w : PieceWorker) : Prop :=
  Outside sha1 hello hash w ∧
    (header.id = .unchoke ∨ header.id = .have → Speaks sha1 hello hash .admitted w)

theorem hears_heeded (header : MsgHeader) : Hears (Heeded sha1 hello hash header) where
  read _ site length h := ⟨h.1.hear site length, fun hid => (h.2 hid).hear site length⟩
  havePieceIdx _ _ h := ⟨h.1.of_log rfl rfl, fun hid => (h.2 hid).of_log rfl rfl⟩

theorem headerOf_heeded (peer : String) (result : Except ErrorCode Bytes) :
    Triple (Replied sha1 hello hash .interested .interested result) (headerOf peer result)
      (Heeded sha1 hello hash) (fun _ => Outside sha1 hello hash) := by
  refine .intro (fun w header w' hw h => ?_) fun w e w' hw h => ?_
  · obtain ⟨got, rfl, hheader, rfl⟩ := headerOf_ok h
    obtain ⟨houtside, hopener, hlast⟩ := hw
    obtain ⟨es, asked, hlog, hes⟩ := hlast got rfl
    exact ⟨houtside, fun hid => ⟨hopener, hlog ▸ hes.enter ⟨asked, got, header, rfl, hheader, hid⟩⟩⟩
  · exact ((keeps_headerOf peer result).error hw h).1

/-- "Interested" returns when it is answered by Unchoke or Have. -/
theorem speaks_doInterested : Triple (Speaks sha1 hello hash .accepted) doInterested
    (fun _ => Speaks sha1 hello hash .admitted) (fun _ => Outside sha1 hello hash) := by
  have hexchange : Triple (Speaks sha1 hello hash .accepted)
      (exchange .interested packInterestedMsg MsgHeader.sizeInBytes)
      (Replied sha1 hello hash .interested .interested) fun _ => Outside sha1 hello hash :=
    replied_exchange (fun _ h => h.outside (by decide)) (by decide)
      fun w h => ⟨⟨h.opener.infoHash, h.opener.packed⟩, h.log.interest⟩
  refine hexchange.bind fun result => (headerOf_heeded _ result).bind fun response => .ite (fun hid => ?_) fun _ => ?_
  · refine (((hears_heeded response).keeps_haveOf _ _).conseq (fun _ h => h) (fun _ _ h => h)
      fun _ _ h => h.1).bind fun msg => .modify fun w h => ?_
    exact (h.2 (.inr hid)).of_log rfl rfl
  · exact .ite (fun _ => .throw _ fun _ h => h.1) fun hid =>
      .pure _ fun _ h => h.2 (.inl (Decidable.not_not.mp hid))

theorem speaks_connectToPeer : Triple (Outside sha1 hello hash) (connectToPeer sha1)
    (fun _ => Speaks sha1 hello hash .admitted) (fun _ => Outside sha1 hello hash) := by
  refine (keeps_connect fun _ h => h.of_log rfl rfl).bind fun _ => speaks_doHandshake.bind fun _ => ?_
  refine (hears_speaks.keeps_doBitfieldOrUnchoke.conseq (fun _ h => h) (fun _ _ h => h)
    fun _ _ h => h.outside (by decide)).bind fun _ => speaks_doInterested.bind fun _ => ?_
  exact .modify fun _ h => h.of_log rfl rfl

/-! ## Calls -/

/-- The phase between two calls. -/
structure Talks (sha1 : Bytes → Digest) (hello hash : Bytes) (w : PieceWorker) : Prop where
  established : w.isPeerConnectionEstablished = true → Speaks sha1 hello hash .admitted w
  fresh : w.isPeerConnectionEstablished = false → Outside sha1 hello hash w

theorem Talks.of_admitted (h : Speaks sha1 hello hash .admitted w)
    (he : w.isPeerConnectionEstablished = true) : Talks sha1 hello hash w :=
  ⟨fun _ => h, fun hf => absurd (he.symm.trans hf) (by decide)⟩

theorem Talks.of_outside (h : Outside sha1 hello hash w)
    (he : w.isPeerConnectionEstablished = false) : Talks sha1 hello hash w :=
  ⟨fun hf => absurd (he.symm.trans hf) (by decide), fun _ => h⟩

theorem talks_connectToPeer :
    Triple (fun w => Talks sha1 hello hash w ∧ w.isPeerConnectionEstablished = false)
      (connectToPeer sha1) (fun _ => Talks sha1 hello hash) (fun _ => Talks sha1 hello hash) :=
  (speaks_connectToPeer.and (connectToPeer_established sha1)).conseq (fun _ h => ⟨h.1.fresh h.2, h.2⟩)
    (fun _ _ h => .of_admitted h.1 h.2) fun _ _ h => .of_outside h.1 h.2

/-- An admitted worker on an established connection. -/
def Engaged (sha1 : Bytes → Digest) (hello hash : Bytes) (w : PieceWorker) : Prop :=
  Speaks sha1 hello hash .admitted w ∧ w.isPeerConnectionEstablished = true

theorem engaged_ensureConnected : Triple (Talks sha1 hello hash) (ensureConnected sha1)
    (fun _ => Engaged sha1 hello hash) (fun _ => Talks sha1 hello hash) := by
  intro w hw
  have hstep : ensureConnected sha1 w =
      (if !w.isPeerConnectionEstablished then connectToPeer sha1 else pure ()) w := get_bind _ w
  rw [hstep]
  cases he : w.isPeerConnectionEstablished with
  | true => exact ⟨hw.established he, he⟩
  | false =>
    have hconnect : Triple (fun w => Outside sha1 hello hash w ∧ w.isPeerConnectionEstablished = false)
        (connectToPeer sha1) (fun _ => Engaged sha1 hello hash) (fun _ => Talks sha1 hello hash) :=
      (speaks_connectToPeer.and (connectToPeer_established sha1)).conseq (fun _ h => h)
        (fun _ _ h => h) fun _ _ h => .of_outside h.1 h.2
    exact hconnect w ⟨hw.fresh he, he⟩

theorem hears_engaged : Hears (Engaged sha1 hello hash) :=
  ⟨fun _ site length h => ⟨h.1.hear site length, h.2⟩, fun _ _ h => ⟨h.1.of_log rfl rfl, h.2⟩⟩

theorem Engaged.talks (h : Engaged sha1 hello hash w) : Talks sha1 hello hash w := .of_admitted h.1 h.2

theorem blockLen_toNat (pieceLen receivedBytes : Nat) :
    (UInt32.ofNat (blockLen pieceLen receivedBytes)).toNat ≤ maxBlockLen := by
  rw [UInt32.toNat_ofNat']
  exact Nat.le_trans (Nat.mod_le _ _) (blockLen_le pieceLen receivedBytes)

theorem engaged_fetchBlock (pieceIdx pieceLen receivedBytes : Nat) :
    Keeps (Engaged sha1 hello hash) (fetchBlock pieceIdx pieceLen receivedBytes) := by
  refine triple_fetchBlock (triple_exchange (fun w h => ?_) (fun w h => ?_) fun _ _ h => h)
    (hears_engaged.keeps_read _) fun w block h => ?_
  · exact ⟨⟨⟨h.1.opener.infoHash, h.1.opener.packed⟩, h.1.log.request (blockLen_toNat _ _)⟩, h.2⟩
  · exact hears_engaged.read w _ _ h
  · exact ⟨h.1.of_log (w.afterWrite_metainfo block) (w.afterWrite_log block),
      (w.afterWrite_established block).trans h.2⟩

theorem talks_fetchPiece (pieceIdx : Nat) : Keeps (Talks sha1 hello hash) (fetchPiece sha1 pieceIdx) := by
  have goes : ∀ {α : Type} {x : Session α}, Keeps (Engaged sha1 hello hash) x →
      Triple (Engaged sha1 hello hash) x (fun _ => Engaged sha1 hello hash)
        fun _ => Talks sha1 hello hash :=
    fun h => h.conseq (fun _ h => h) (fun _ _ h => h) fun _ _ h => h.talks
  refine engaged_ensureConnected.bind fun _ => .reading fun w _ => (goes (keeps_orThrow _ _)).bind fun len => ?_
  refine (goes (keeps_fetchBlocks (engaged_fetchBlock pieceIdx _) _ _)).bind fun _ => ?_
  refine (goes (keeps_throwIf _ _)).bind fun _ => .modify fun w h => ?_
  exact .of_admitted ⟨⟨h.1.opener.infoHash, h.1.opener.packed⟩, h.1.log.silent nofun⟩ h.2

theorem Talks.of_log (h : Talks sha1 hello hash w) (hm : w'.metainfo = w.metainfo)
    (hlog : w'.log = w.log) (he : w'.isPeerConnectionEstablished = w.isPeerConnectionEstablished) :
    Talks sha1 hello hash w' :=
  ⟨fun hest => (h.established (he ▸ hest)).of_log hm hlog, fun hest => (h.fresh (he ▸ hest)).of_log hm hlog⟩

theorem hears_talks : Hears (Talks sha1 hello hash) where
  read _ site length h :=
    ⟨fun he => (h.established he).hear site length, fun he => (h.fresh he).hear site length⟩
  havePieceIdx _ _ h := h.of_log rfl rfl rfl

theorem talks_downloadPiece (pieceIdx : Nat) :
    Keeps (Talks sha1 hello hash) (downloadPiece sha1 pieceIdx) := by
  have take := keeps_takeHavePieceIdx (I := Talks sha1 hello hash) hears_talks.havePieceIdx
  refine .bind (R := fun _ => Talks sha1 hello hash) (.modify fun _ h => h.of_log rfl rfl rfl) fun _ =>
    .reading fun w _ => .ite (fun _ => ?_) fun _ => .ite (fun _ => ?_) fun _ => ?_
  · exact take.bind fun _ => talks_fetchPiece _
  · refine hears_talks.keeps_waitHave.bind fun _ => .ite (fun _ => ?_) fun _ => .pure _ fun _ h => h
    exact take.bind fun _ => talks_fetchPiece _
  · exact talks_fetchPiece _

theorem talks_run (task : Task) : Triple (fun w => Talks sha1 hello hash w ∧ task.Allowed w)
    (task.run sha1) (fun _ => Talks sha1 hello hash) (fun _ => Talks sha1 hello hash) := by
  cases task with
  | downloadPiece index =>
    exact (talks_downloadPiece index).conseq (fun _ h => h.1) (fun _ _ h => h) fun _ _ h => h
  | checkConnection =>
    exact talks_connectToPeer.conseq (fun _ h => ⟨h.1, h.2 rfl⟩) (fun _ _ h => h) fun _ _ h => h

/-! ## Runs -/

theorem metainfo_kept (metainfo : Metainfo) : Kept (fun _ => True) fun w => w.metainfo = metainfo :=
  ⟨fun _ _ _ _ h => h, fun _ _ h => h, fun _ _ h => h⟩

theorem metainfo_connect (metainfo : Metainfo) : KeptByConnect fun w => w.metainfo = metainfo :=
  ⟨fun _ h => h, fun _ h => h, fun _ h => h⟩

theorem keeps_metainfo (metainfo : Metainfo) (sha1 : Bytes → Digest) (task : Task) :
    Keeps (fun w => w.metainfo = metainfo) (task.run sha1) := by
  have hk := metainfo_kept metainfo
  have hc := metainfo_connect metainfo
  cases task with
  | downloadPiece index =>
    refine hk.keeps_downloadPiece ⟨fun _ h => h, fun w block h => ?_, fun _ _ h => h⟩
      (hk.keeps_ensureConnected hc (fun _ _ => trivial) sha1) index
    exact (w.afterWrite_metainfo block).trans h
  | checkConnection => exact hk.keeps_connectToPeer hc (fun _ _ => trivial) sha1

theorem Ran.talks {thrown : Bool} (h : Ran sha1 thrown w) (hhello : Hello sha1 hello hash w) :
    Talks sha1 hello hash w := by
  induction h with
  | new hlog hest =>
    exact .of_outside ⟨.closed, by decide, hhello, by rw [hlog]; exact .start⟩ hest
  | @returned thrown w w' task _ hallowed hx ih =>
    have hm : w'.metainfo = w.metainfo := (keeps_metainfo _ sha1 task).ok rfl hx
    exact (talks_run task).ok ⟨ih ⟨hm ▸ hhello.infoHash, hhello.packed⟩, hallowed⟩ hx
  | @threw thrown w w' task e _ hallowed hx ih =>
    have hm : w'.metainfo = w.metainfo := (keeps_metainfo _ sha1 task).error rfl hx
    exact (talks_run task).error ⟨ih ⟨hm ▸ hhello.infoHash, hhello.packed⟩, hallowed⟩ hx

/-- The worker of `announcing` after one transfer. -/
def announced : PieceWorker := final ((Task.downloadPiece 0).run Misc.sha1) announcing

end Bittorrent.Client
