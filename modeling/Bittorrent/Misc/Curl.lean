import Bittorrent.Basic

/-! A transfer over a raw connection of libcurl. The library is a parameter: a
handle is what its calls return. -/

namespace Bittorrent.Misc

inductive CurlCode where
  | ok
  | again
  | other (name message : String)
  deriving DecidableEq

def CurlCode.name : CurlCode → String
  | ok => "CURLE_OK"
  | again => "CURLE_AGAIN"
  | other name _ => name

/-- `curl_easy_strerror` -/
def CurlCode.message : CurlCode → String
  | ok => "No error"
  | again => "Socket not ready for send/recv"
  | other _ message => message

/-- The codes of connecting and sending; for each call that receives its code
and the bytes it stores in the buffer. -/
structure Curl where
  perform : Bytes → CurlCode
  send : Bytes → CurlCode
  recv : List (CurlCode × Bytes)

/-- A buffer after a call stored bytes at its front. -/
def stored (received data : Bytes) : Bytes :=
  received.take data.length ++ data.drop received.length

theorem stored_nil (data : Bytes) : stored [] data = data := by simp [stored]

/-- The polling loop. It returns the whole buffer, whatever count it was told. -/
def recvLoop : List (CurlCode × Bytes) → Bytes → Except Exception (CurlCode × Bytes)
  | [], _ => .error .outOfFuel
  | (code, received) :: recv, data =>
    if code = .again then recvLoop recv (stored received data)
    else .ok (code, stored received data)

def tcpTransfer (curl : Curl) (ip port message : Bytes) : Except Exception (CurlCode × Bytes) :=
  let connected := curl.perform (ip ++ ascii ":" ++ port)
  if connected ≠ .ok then .ok (connected, [])
  else
    let sent := curl.send message
    if sent ≠ .ok then .ok (sent, [])
    else recvLoop curl.recv (List.replicate 256 0)

/-- One call stores the response, after some that were not ready. -/
structure Curl.Delivers (curl : Curl) (response : Bytes) : Prop where
  perform : ∀ url, curl.perform url = .ok
  send : ∀ message, curl.send message = .ok
  recv : ∃ polls later, curl.recv = List.replicate polls (.again, []) ++ (.ok, response) :: later

theorem recvLoop_polls (polls : Nat) (recv : List (CurlCode × Bytes)) (data : Bytes) :
    recvLoop (List.replicate polls (.again, []) ++ recv) data = recvLoop recv data := by
  induction polls with
  | zero => rfl
  | succ polls ih =>
    rw [List.replicate_succ, List.cons_append, recvLoop, if_pos rfl, stored_nil, ih]

/-- The caller gets the response with zeros behind it. -/
theorem tcpTransfer_delivers {curl : Curl} {response : Bytes} (h : curl.Delivers response)
    (hl : response.length ≤ 256) (ip port message : Bytes) :
    tcpTransfer curl ip port message =
      .ok (.ok, response ++ List.replicate (256 - response.length) 0) := by
  obtain ⟨polls, later, hrecv⟩ := h.recv
  have hstored : stored response (List.replicate 256 0) =
      response ++ List.replicate (256 - response.length) 0 := by
    rw [stored, List.length_replicate, List.take_of_length_le hl, List.drop_replicate]
  unfold tcpTransfer
  rw [h.perform, h.send, hrecv, recvLoop_polls]
  exact congrArg (fun data => Except.ok (CurlCode.ok, data)) hstored

end Bittorrent.Misc
