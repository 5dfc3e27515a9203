import Bqti.Core.Run
import Bqti.Core.Slice
import Bqti.Enclave.ProofOfWork

/-!
# Calls into the enclave

Every operation of the trusted environment starts an enclave, runs it for one request and
destroys it. The host keeps the last request and the last response in static buffers that no
destruction clears, and copies its result out of the second whatever the run came to. Operations
exclude each other by a lock, so that a call is one step here; what an enclave delivers is a
label of the step.
-/

namespace Bqti.Enclave

open Bqti.Core Bqti.Torrent

/-! ## Requests and responses -/

/-- The status of a request that was served. -/
def enclaveOk : UInt32 := 0

/-- The status of an attestation that failed. -/
def enclaveErrGeneric : UInt32 := 0xFFFFFFFF

/-- The status of a request that is not known. -/
def enclaveErrInvalidOp : UInt32 := 0xFFFFFFFE

/-- The result of a call whose data do not fit into the request. -/
def enclaveErrOverflow : Int32 := -8

/-- The length of the data to be signed. -/
def dataMaxLength : Nat := 1024

/-- The length of the nonce of a request for an attestation. -/
def attestNonceLength : Nat := 64

/-- The length of a report, which is the longest arm of the union of a response. -/
def attestReportSize : Nat := 1352

/-- A request: the arm of the union that its number names, which is set together with the number
and is all that the enclave reads. The buffer is empty before the first call. -/
inductive Request
  | unset
  | hash (data : Bytes)
  | sign (data : Bytes)
  | pow (challange difficulty : UInt32)
  | fetchPubkey
  | attest (nonce : Bytes)
  deriving DecidableEq

/-- The number of an operation. -/
def Request.op : Request → UInt32
  | .unset => 0
  | .hash _ => 1
  | .sign _ => 2
  | .pow _ _ => 3
  | .fetchPubkey => 4
  | .attest _ => 5

/-- A response; the arms of its union lie over each other in the same bytes. -/
structure Response where
  op : UInt32
  status : UInt32
  body : Bytes
  deriving DecidableEq

/-- Write a field of an arm of the union. -/
def Response.write (r : Response) (offset : Nat) (field : Bytes) : Response :=
  { r with body := overwrite 0 r.body offset field }

/-- The response buffer before anything was written to it. -/
def Response.zeroed : Response := ⟨0, 0, List.replicate attestReportSize 0⟩

/-- The keys of an enclave, which it derives anew from the platform at every start. -/
structure Device where
  pubKey : PubKey
  sign : Bytes → Vector UInt8 64

/-- What the security monitor answers to a nonce. -/
abbrev Attest := Bytes → Option (Vector UInt8 1352)

/-- The program of the enclave from the request to the response that it sends. There is no
response while the search for a nonce goes on, nor after it has read outside of a digest. -/
def enclaveMain (device : Device) (attest : Attest) (fuel : Nat) (request : Request) :
    Option Response :=
  let response : Response := { Response.zeroed with op := request.op, status := enclaveOk }
  match request with
  | .hash data => some (response.write 0 (Sha256.digest data).toList)
  | .sign data =>
      some ((response.write 0 (device.sign data).toList).write 64 device.pubKey.toList)
  | .pow challange difficulty =>
      match powCalculate device.pubKey challange difficulty fuel with
      | some (.returned (nonce, hash)) =>
          some ((((response.write 0 (le32 nonce)).write 4 hash.toList).write 68
            (device.sign hash.toList).toList).write 36 device.pubKey.toList)
      | some .panicked | none => none
  | .fetchPubkey => some (response.write 0 device.pubKey.toList)
  | .attest nonce =>
      match attest nonce with
      | none => some { response with status := enclaveErrGeneric }
      | some report => some (response.write 0 report.toList)
  | .unset => some { response with status := enclaveErrInvalidOp }

/-! ## The host -/

/-- The static data of the host. Nothing reads what was sent since the last start: it is a
record for the statements below. -/
structure Host where
  request : Request
  response : Response
  initialized : Bool
  sent : Option Response

/-- The host before its first call. -/
def Host.new : Host := ⟨.unset, .zeroed, false, none⟩

/-- What a run of an enclave comes to: it ends with nothing delivered, for whatever reason, or
the enclave sends its response, whether the run then reports an error or not. -/
inductive EnclaveRun
  | silent
  | delivered (attest : Attest) (fuel : Nat)

/-- The runs of an enclave as the host sees them; its errors are not looked at. -/
def EnclaveRun.apply (device : Device) : EnclaveRun → Host → Option Host
  | .silent, h => some h
  | .delivered attest fuel, h =>
      (enclaveMain device attest fuel h.request).map fun response =>
        { h with response := response, sent := some response }

/-- Start an enclave. The errors of the start are not looked at. -/
def enclaveInit (h : Host) : Host × Int32 := ({ h with initialized := true }, 0)

/-- Destroy the enclave. -/
def enclaveDestroy (h : Host) : Host := { h with initialized := false }

section Host

variable {α : Type*}

/-- A call that needs an enclave. -/
def whenInitialized (out : α) (body : Host → Option (Host × Ended (Int32 × α))) (h : Host) :
    Option (Host × Ended (Int32 × α)) :=
  if h.initialized then body h else some (h, .returned (-1, out))

/-- Write the request, run the enclave and copy the result and the status. -/
def exchange (request : Request) (read : Bytes → α) (enclave : Host → Option Host) (h : Host) :
    Option (Host × Ended (Int32 × α)) :=
  (enclave { h with request := request }).map fun h =>
    (h, .returned (h.response.status.toInt32, read h.response.body))

end Host

/-- The result of a proof of work. -/
structure PowResult where
  hash : Bytes
  nonce : UInt32
  sig : Bytes
  pubKey : Bytes
  deriving DecidableEq

/-- A number in memory. -/
def leNumber (bytes : Bytes) : Nat := bytes.foldr (fun b n => b.toNat + 256 * n) 0

/-- The arm of a proof of work. -/
def PowResult.read (body : Bytes) : PowResult :=
  ⟨slice body 4 32, UInt32.ofNat (leNumber (slice body 0 4)), slice body 68 64, slice body 36 32⟩

/-- Let the enclave search for a nonce. -/
def enclaveRunPow (challenge difficulty : UInt32) (out : PowResult)
    (enclave : Host → Option Host) : Host → Option (Host × Ended (Int32 × PowResult)) :=
  whenInitialized out (exchange (.pow challenge difficulty) PowResult.read enclave)

/-- Ask the enclave for its public key. -/
def enclaveGetPubkey (out : Bytes) (enclave : Host → Option Host) :
    Host → Option (Host × Ended (Int32 × Bytes)) :=
  whenInitialized out (exchange .fetchPubkey (fun body => slice body 0 32) enclave)

/-- Data that are too long are refused. -/
def enclaveSign (data out : Bytes) (enclave : Host → Option Host) :
    Host → Option (Host × Ended (Int32 × Bytes)) :=
  whenInitialized out fun h =>
    if data.length > dataMaxLength then some (h, .returned (enclaveErrOverflow, out))
    else exchange (.sign data) (fun body => slice body 0 64) enclave h

/-- A nonce is copied without a look at its length: behind the end of its array, nothing is
defined. -/
def enclaveAttest (nonce out : Bytes) (enclave : Host → Option Host) :
    Host → Option (Host × Ended (Int32 × Bytes)) :=
  whenInitialized out fun h =>
    if nonce.length > attestNonceLength then some (h, .panicked)
    else exchange (.attest nonce) (fun body => slice body 0 attestReportSize) enclave h

/-! ## The trusted environment -/

/-- The errors of the trusted environment. -/
inductive TeeError
  | initFailed (code : Int32)
  | powFailed (code : Int32)
  | signatureFailed (code : Int32)
  | publicKeyFailed (code : Int32)
  | attestFailed (code : Int32)
  deriving DecidableEq

/-- What an enclave and the security monitor sign in a report. -/
structure AttestReport where
  enclaveHash : Bytes
  dataLen : UInt64
  data : Bytes
  enclaveSignature : Bytes
  smHash : Bytes
  smPublicKey : Bytes
  smSignature : Bytes
  devPublicKey : Bytes
  deriving DecidableEq

/-- The fields of a report, one behind the other. -/
def parseAttestReport (bytes : Bytes) : AttestReport where
  enclaveHash := slice bytes 0 64
  dataLen := UInt64.ofNat (leNumber (slice bytes 64 8))
  data := slice bytes 72 1024
  enclaveSignature := slice bytes 1096 64
  smHash := slice bytes 1160 64
  smPublicKey := slice bytes 1224 32
  smSignature := slice bytes 1256 64
  devPublicKey := slice bytes 1320 32

/-- The results of the operations. -/
inductive Value
  | pow (result : PowResult)
  | signature (bytes : Bytes)
  | pubKey (bytes : Bytes)
  | report (report : AttestReport)
  deriving DecidableEq

/-- An operation under the lock: start an enclave, call the host, destroy the enclave and look
at the code. -/
def teeCall {α : Type*} (error : Int32 → TeeError) (result : α → Value)
    (ffi : Host → Option (Host × Ended (Int32 × α))) (h : Host) :
    Option (Host × Ended (Except TeeError Value)) :=
  let (h, code) := enclaveInit h
  if code ≠ 0 then some (h, .returned (.error (.initFailed code)))
  else
    (ffi h).map fun (h, ended) =>
      (enclaveDestroy h,
        match ended with
        | .panicked => .panicked
        | .returned (code, out) =>
            if code ≠ 0 then .returned (.error (error code)) else .returned (.ok (result out)))

/-- Bytes before anything was copied over them. -/
def zeroBytes (n : Nat) : Bytes := List.replicate n 0

/-- Search for a nonce in the enclave; the buffers start out as zeros. -/
def Tee.pow (challange difficulty : UInt32) (enclave : Host → Option Host) :
    Host → Option (Host × Ended (Except TeeError Value)) :=
  teeCall .powFailed .pow
    (enclaveRunPow challange difficulty ⟨zeroBytes 32, 0, zeroBytes 64, zeroBytes 32⟩ enclave)

/-- Sign in the enclave; the signature starts out as zeros. -/
def Tee.sign (data : Bytes) (enclave : Host → Option Host) :
    Host → Option (Host × Ended (Except TeeError Value)) :=
  teeCall .signatureFailed .signature (enclaveSign data (zeroBytes 64) enclave)

/-- The public key of the enclave; the buffer starts out as zeros. -/
def Tee.getPubkey (enclave : Host → Option Host) :
    Host → Option (Host × Ended (Except TeeError Value)) :=
  teeCall .publicKeyFailed .pubKey (enclaveGetPubkey (zeroBytes 32) enclave)

/-- The report of the enclave; the buffer starts out as zeros. -/
def Tee.attest (nonce : Bytes) (enclave : Host → Option Host) :
    Host → Option (Host × Ended (Except TeeError Value)) :=
  teeCall .attestFailed (fun bytes => .report (parseAttestReport bytes))
    (enclaveAttest nonce (zeroBytes attestReportSize) enclave)

/-- The operations and what they are called with. -/
inductive Call
  | pow (challange difficulty : UInt32)
  | sign (data : Bytes)
  | getPubkey
  | attest (nonce : Bytes)
  deriving DecidableEq

/-- Call an operation. -/
def Call.execute (enclave : Host → Option Host) :
    Call → Host → Option (Host × Ended (Except TeeError Value))
  | .pow challange difficulty => Tee.pow challange difficulty enclave
  | .sign data => Tee.sign data enclave
  | .getPubkey => Tee.getPubkey enclave
  | .attest nonce => Tee.attest nonce enclave

/-- A call that has ended: what the enclave sent during it and how it ended. -/
structure Finished where
  call : Call
  sent : Option Response
  ended : Ended (Except TeeError Value)
  deriving DecidableEq

/-- The host while it is defined, and the calls that have ended, oldest first. -/
structure System where
  host : Option Host
  calls : List Finished

/-- The system before its first call. -/
def System.new : System := ⟨some .new, []⟩

/-- A call and what its run comes to. -/
structure Label where
  call : Call
  run : EnclaveRun

/-- One call. Nothing follows a call with undefined behaviour. -/
def step (device : Device) (s : System) (a : Label) : Option System :=
  s.host.bind fun h =>
    (a.call.execute (a.run.apply device) { h with sent := none }).map fun (h', ended) =>
      ⟨match ended with
        | .panicked => none
        | .returned _ => some h',
      s.calls ++ [⟨a.call, h'.sent, ended⟩]⟩

/-! ## The specification -/

/-- The request of a call. -/
def Call.request : Call → Request
  | .pow challange difficulty => .pow challange difficulty
  | .sign data => .sign data
  | .getPubkey => .fetchPubkey
  | .attest nonce => .attest nonce

/-- What a call reads from a response. -/
def Call.value (body : Bytes) : Call → Value
  | .pow _ _ => .pow (PowResult.read body)
  | .sign _ => .signature (slice body 0 64)
  | .getPubkey => .pubKey (slice body 0 32)
  | .attest _ => .report (parseAttestReport (slice body 0 attestReportSize))

/-- A call returns, and what it returns without an error is what the enclave delivered during the
call for its operation. -/
def Finished.Belongs (f : Finished) : Prop :=
  ∃ result, f.ended = .returned result ∧
    ∀ x, result = .ok x →
      ∃ r, f.sent = some r ∧ r.op = f.call.request.op ∧ x = f.call.value r.body

/-- The results of all calls are their own. -/
def System.Belong (s : System) : Prop := ∀ f ∈ s.calls, f.Belongs

/-- Data that are too long to be signed are refused before the enclave runs. -/
def Call.Refused : Call → Prop
  | .sign data => dataMaxLength < data.length
  | .pow _ _ | .getPubkey | .attest _ => False

/-- The nonce of an attestation fits into its array. -/
def Call.Fits : Call → Prop
  | .attest nonce => nonce.length ≤ attestNonceLength
  | .pow _ _ | .getPubkey | .sign _ => True

/-- The enclave delivers, or nobody waits for it, or the last response that was delivered at all
reported an error. -/
def Safe (s : System) (a : Label) : Prop :=
  a.call.Fits ∧ (a.run = .silent →
    a.call.Refused ∨ ∃ h, s.host = some h ∧ h.response.status ≠ enclaveOk)

instance (call : Call) : Decidable call.Refused :=
  match call with
  | .sign data => inferInstanceAs (Decidable (dataMaxLength < data.length))
  | .pow _ _ | .getPubkey | .attest _ => inferInstanceAs (Decidable False)

instance (call : Call) : Decidable call.Fits :=
  match call with
  | .attest nonce => inferInstanceAs (Decidable (nonce.length ≤ attestNonceLength))
  | .pow _ _ | .getPubkey | .sign _ => inferInstanceAs (Decidable True)

/-- The error that a call makes of a code. -/
def Call.error : Call → Int32 → TeeError
  | .pow _ _ => .powFailed
  | .sign _ => .signatureFailed
  | .getPubkey => .publicKeyFailed
  | .attest _ => .attestFailed

/-- What a call makes of the response buffer. -/
def Call.result (call : Call) (r : Response) : Except TeeError Value :=
  if r.status = enclaveOk then .ok (call.value r.body)
  else .error (call.error r.status.toInt32)

/-- What the enclave computes for a call. -/
def Call.computes (device : Device) (attest : Attest) (fuel : Nat) : Call → Option Value
  | .pow challange difficulty =>
      match powCalculate device.pubKey challange difficulty fuel with
      | some (.returned (nonce, hash)) =>
          some (.pow ⟨hash.toList, nonce, (device.sign hash.toList).toList, device.pubKey.toList⟩)
      | some .panicked | none => none
  | .sign data => some (.signature (device.sign data).toList)
  | .getPubkey => some (.pubKey device.pubKey.toList)
  | .attest nonce =>
      (attest nonce).map fun report => .report (parseAttestReport report.toList)

/-! ## What a call does -/

/-- The code of a status is zero only for success. -/
theorem toInt32_ne_zero {status : UInt32} : status.toInt32 ≠ 0 ↔ status ≠ enclaveOk := by
  refine not_congr ⟨fun h => ?_, fun h => ?_⟩
  · exact congrArg Int32.toUInt32 h
  · rw [h]
    rfl

/-- A call through the trusted environment returns what the enclave has written, or its own
error. -/
theorem teeCall_exchange {α : Type*} (call : Call) {result : α → Value} (read : Bytes → α)
    {out : α} (hread : ∀ body, result (read body) = call.value body)
    (enclave : Host → Option Host) (h : Host) :
    teeCall call.error result (whenInitialized out (exchange call.request read enclave)) h =
      (enclave { h with request := call.request, initialized := true }).map fun h' =>
        (enclaveDestroy h', .returned (call.result h'.response)) := by
  simp only [teeCall, enclaveInit, whenInitialized, exchange, if_true, ne_eq, not_true_eq_false,
    if_false, Option.map_map]
  congr 1
  funext h'
  simp only [Function.comp_apply, Call.result, Prod.mk.injEq, true_and]
  by_cases hstatus : h'.response.status = enclaveOk
  · rw [if_neg (not_not_intro (not_not.mp (mt toInt32_ne_zero.mp (not_not_intro hstatus)))),
      if_pos hstatus, hread]
  · rw [if_pos (toInt32_ne_zero.mpr hstatus), if_neg hstatus]

/-- A call that is accepted runs the enclave on its request and reads the response buffer. -/
theorem Call.execute_eq {call : Call} (hfits : call.Fits) (haccepted : ¬ call.Refused)
    (enclave : Host → Option Host) (h : Host) :
    call.execute enclave h =
      (enclave { h with request := call.request, initialized := true }).map fun h' =>
        (enclaveDestroy h', .returned (call.result h'.response)) := by
  cases call with
  | pow challange difficulty =>
    exact teeCall_exchange (.pow challange difficulty) PowResult.read (fun _ => rfl) enclave h
  | getPubkey =>
    exact teeCall_exchange .getPubkey (fun body => slice body 0 32) (fun _ => rfl) enclave h
  | sign data =>
    have haccept : enclaveSign data (zeroBytes 64) enclave =
        whenInitialized (zeroBytes 64) (exchange (.sign data) (fun body => slice body 0 64)
          enclave) := by
      rw [enclaveSign]
      congr 1
      funext h
      exact if_neg haccepted
    rw [Call.execute, Tee.sign, haccept]
    exact teeCall_exchange (.sign data) (fun body => slice body 0 64) (fun _ => rfl) enclave h
  | attest nonce =>
    have haccept : enclaveAttest nonce (zeroBytes attestReportSize) enclave =
        whenInitialized (zeroBytes attestReportSize) (exchange (.attest nonce)
          (fun body => slice body 0 attestReportSize) enclave) := by
      rw [enclaveAttest]
      congr 1
      funext h
      exact if_neg (Nat.not_lt.mpr hfits)
    rw [Call.execute, Tee.attest, haccept]
    exact teeCall_exchange (.attest nonce) (fun body => slice body 0 attestReportSize)
      (fun _ => rfl) enclave h

/-- A call that is refused ends with an error. -/
theorem Call.execute_of_refused {call : Call} (hrefused : call.Refused)
    (enclave : Host → Option Host) (h : Host) :
    call.execute enclave h =
      some (enclaveDestroy { h with initialized := true },
        .returned (.error (.signatureFailed enclaveErrOverflow))) := by
  cases call with
  | pow challange difficulty => exact hrefused.elim
  | getPubkey => exact hrefused.elim
  | attest nonce => exact hrefused.elim
  | sign data =>
    have hlong : data.length > dataMaxLength := hrefused
    simp only [Call.execute, Tee.sign, teeCall, enclaveInit, enclaveSign, whenInitialized,
      if_pos hlong]
    rfl

/-- Nothing is defined for a nonce that does not fit. -/
theorem Call.execute_of_not_fits {call : Call} (hfits : ¬ call.Fits)
    (enclave : Host → Option Host) (h : Host) :
    call.execute enclave h = some (enclaveDestroy { h with initialized := true }, .panicked) := by
  cases call with
  | pow challange difficulty => exact absurd trivial hfits
  | getPubkey => exact absurd trivial hfits
  | sign data => exact absurd trivial hfits
  | attest nonce =>
    have hlong : nonce.length > attestNonceLength := Nat.not_le.mp hfits
    simp only [Call.execute, Tee.attest, teeCall, enclaveInit, enclaveAttest, whenInitialized,
      if_pos hlong]
    rfl

/-! ## What the enclave delivers -/

/-- A response names the operation of its request. -/
theorem op_of_enclaveMain {device : Device} {attest : Attest} {fuel : Nat} {request : Request}
    {r : Response} (h : enclaveMain device attest fuel request = some r) : r.op = request.op := by
  cases request with
  | unset => cases h; rfl
  | hash data => cases h; rfl
  | sign data => cases h; rfl
  | fetchPubkey => cases h; rfl
  | pow challange difficulty =>
    rw [enclaveMain] at h
    split at h
    · cases h; rfl
    · cases h
    · cases h
  | attest nonce =>
    rw [enclaveMain] at h
    split at h <;> cases h <;> rfl

/-- A number is read back from its four bytes. -/
theorem leNumber_le32 (n : UInt32) : leNumber (le32 n) = n.toNat := by
  have hn := n.toNat_lt
  have h8 : (8 : UInt32).toNat % 32 = 8 := rfl
  have h16 : (16 : UInt32).toNat % 32 = 16 := rfl
  have h24 : (24 : UInt32).toNat % 32 = 24 := rfl
  simp only [le32, be32, leNumber, List.reverse_cons, List.reverse_nil, List.nil_append,
    List.cons_append, List.foldr_cons, List.foldr_nil, UInt32.toNat_toUInt8,
    UInt32.toNat_shiftRight, Nat.shiftRight_eq_div_pow, h8, h16, h24]
  omega

/-- A zeroed response has room for a report. -/
theorem length_zeroed : Response.zeroed.body.length = attestReportSize := List.length_replicate

section Write

variable {r : Response} {offset start size : Nat} {field : Bytes}

/-- Writing inside a body keeps its length. -/
theorem length_write (hend : offset + field.length ≤ r.body.length) :
    (r.write offset field).body.length = r.body.length := by
  rw [Response.write, length_overwrite]
  split
  · rfl
  · omega

/-- A field is read back from where it was written. -/
theorem slice_write (hsize : field.length = size) :
    slice (r.write offset field).body offset size = field := by
  rw [← hsize]
  exact slice_overwrite 0 r.body offset field

/-- A field is not touched by what is written beside it. -/
theorem slice_write_of_disjoint (hend : start + size ≤ r.body.length)
    (hout : start + size ≤ offset ∨ offset + field.length ≤ start) :
    slice (r.write offset field).body start size = slice r.body start size :=
  slice_overwrite_of_disjoint 0 hend hout

end Write

/-- The fields of a proof of work do not overlap. -/
theorem read_written {r : Response} (hbody : r.body.length = attestReportSize) (nonce : UInt32)
    (hash : Hash32) (sig : Vector UInt8 64) (pubKey : PubKey) :
    PowResult.read ((((r.write 0 (le32 nonce)).write 4 hash.toList).write 68 sig.toList).write 36
        pubKey.toList).body =
      ⟨hash.toList, nonce, sig.toList, pubKey.toList⟩ := by
  have hn : (le32 nonce).length = 4 := rfl
  have hh : hash.toList.length = 32 := hash.length_toList
  have hs : sig.toList.length = 64 := sig.length_toList
  have hp : pubKey.toList.length = 32 := pubKey.length_toList
  have hsize : attestReportSize = 1352 := rfl
  have h₁ : (r.write 0 (le32 nonce)).body.length = 1352 := by
    rw [length_write (by omega), hbody, hsize]
  have h₂ : ((r.write 0 (le32 nonce)).write 4 hash.toList).body.length = 1352 := by
    rw [length_write (by omega), h₁]
  have h₃ : (((r.write 0 (le32 nonce)).write 4 hash.toList).write 68 sig.toList).body.length =
      1352 := by
    rw [length_write (by omega), h₂]
  rw [PowResult.read, PowResult.mk.injEq]
  refine ⟨?_, ?_, ?_, slice_write hp⟩
  · rw [slice_write_of_disjoint (by omega) (by omega),
      slice_write_of_disjoint (by omega) (by omega), slice_write hh]
  · rw [slice_write_of_disjoint (by omega) (by omega),
      slice_write_of_disjoint (by omega) (by omega),
      slice_write_of_disjoint (by omega) (by omega), slice_write hn, leNumber_le32,
      UInt32.ofNat_toNat]
  · rw [slice_write_of_disjoint (by omega) (by omega), slice_write hs]

/-- A signature is read back from the body that it was written to. -/
theorem signature_written {r : Response} (hbody : r.body.length = attestReportSize)
    (sig : Vector UInt8 64) (pubKey : PubKey) :
    slice ((r.write 0 sig.toList).write 64 pubKey.toList).body 0 64 = sig.toList := by
  have hs : sig.toList.length = 64 := sig.length_toList
  have hsize : attestReportSize = 1352 := rfl
  have h₁ : (r.write 0 sig.toList).body.length = 1352 := by
    rw [length_write (by omega), hbody, hsize]
  rw [slice_write_of_disjoint (by omega) (by omega), slice_write hs]

/-- What a call reads from the response of the enclave is what the enclave has computed. -/
theorem computes_of_enclaveMain {device : Device} {attest : Attest} {fuel : Nat} {call : Call}
    {r : Response} (h : enclaveMain device attest fuel call.request = some r)
    (hok : r.status = enclaveOk) :
    call.computes device attest fuel = some (call.value r.body) := by
  cases call with
  | pow challange difficulty =>
    simp only [Call.request, enclaveMain] at h
    rw [Call.computes]
    split at h
    · rename_i nonce hash hcalculated
      obtain rfl := Option.some.inj h
      exact congrArg (fun x => some (Value.pow x)) (read_written length_zeroed nonce hash _ _).symm
    · cases h
    · cases h
  | sign data =>
    obtain rfl := Option.some.inj h
    exact congrArg (fun bytes => some (Value.signature bytes))
      (signature_written length_zeroed (device.sign data) device.pubKey).symm
  | getPubkey =>
    obtain rfl := Option.some.inj h
    rw [Call.computes, Call.value, slice_write device.pubKey.length_toList]
  | attest nonce =>
    simp only [Call.request, enclaveMain] at h
    split at h
    · obtain rfl := Option.some.inj h
      have herror : enclaveErrGeneric ≠ enclaveOk := by decide
      exact absurd hok herror
    · rename_i report hreport
      obtain rfl := Option.some.inj h
      have hsize : report.toList.length = attestReportSize := report.length_toList
      rw [Call.computes, hreport, Call.value, slice_write hsize]
      rfl

/-- A call during which the enclave delivers returns what the enclave computes for it. -/
theorem Call.computes_of_execute {device : Device} {attest : Attest} {fuel : Nat} {call : Call}
    {h h' : Host} {x : Value}
    (hexecute : call.execute (EnclaveRun.apply device (.delivered attest fuel)) h =
      some (h', .returned (.ok x))) : call.computes device attest fuel = some x := by
  by_cases hfits : call.Fits
  · by_cases hrefused : call.Refused
    · rw [Call.execute_of_refused hrefused] at hexecute
      cases hexecute
    · rw [Call.execute_eq hfits hrefused] at hexecute
      obtain ⟨h₁, hrun, hended⟩ := Option.map_eq_some_iff.mp hexecute
      obtain ⟨r, hr, rfl⟩ := Option.map_eq_some_iff.mp hrun
      obtain ⟨-, hresult⟩ := Prod.mk.inj hended
      have hresult : call.result r = .ok x := Ended.returned.inj hresult
      rw [Call.result] at hresult
      split at hresult
      · rename_i hok
        rw [computes_of_enclaveMain hr hok, Except.ok.inj hresult]
      · cases hresult
  · rw [Call.execute_of_not_fits hfits] at hexecute
    cases hexecute

/-! ## Runs -/

section Runs

variable {device : Device} {s s' : System} {a : Label}

/-- A step ends one call. -/
theorem step_cases (hstep : step device s a = some s') :
    ∃ h h' ended, s.host = some h ∧
      a.call.execute (a.run.apply device) { h with sent := none } = some (h', ended) ∧
      s'.calls = s.calls ++ [⟨a.call, h'.sent, ended⟩] := by
  obtain ⟨h, hh, hstep⟩ := Option.bind_eq_some_iff.mp hstep
  obtain ⟨⟨h', ended⟩, hexecute, rfl⟩ := Option.map_eq_some_iff.mp hstep
  exact ⟨h, h', ended, hh, hexecute, rfl⟩

/-- The result of a call is its own precisely when the call is safe. -/
theorem belongs_iff_safe {h h' : Host} {ended : Ended (Except TeeError Value)}
    (hh : s.host = some h)
    (hexecute : a.call.execute (a.run.apply device) { h with sent := none } = some (h', ended)) :
    (⟨a.call, h'.sent, ended⟩ : Finished).Belongs ↔ Safe s a := by
  by_cases hfits : a.call.Fits
  · by_cases hrefused : a.call.Refused
    · rw [Call.execute_of_refused hrefused] at hexecute
      obtain ⟨rfl, rfl⟩ := Prod.mk.inj (Option.some.inj hexecute)
      refine iff_of_true ⟨_, rfl, fun x hx => by cases hx⟩ ⟨hfits, fun _ => .inl hrefused⟩
    · rw [Call.execute_eq hfits hrefused] at hexecute
      obtain ⟨h₁, hrun, hended⟩ := Option.map_eq_some_iff.mp hexecute
      obtain ⟨rfl, rfl⟩ := Prod.mk.inj hended
      cases hlabel : a.run with
      | delivered attest fuel =>
        rw [hlabel] at hrun
        obtain ⟨r, hr, rfl⟩ := Option.map_eq_some_iff.mp hrun
        refine iff_of_true ⟨_, rfl, fun x hx => ⟨r, rfl, op_of_enclaveMain hr, ?_⟩⟩
          ⟨hfits, fun hsilent => by rw [hlabel] at hsilent; cases hsilent⟩
        rw [Call.result] at hx
        split at hx
        · exact (Except.ok.inj hx).symm
        · cases hx
      | silent =>
        rw [hlabel] at hrun
        cases hrun
        by_cases hstatus : h.response.status = enclaveOk
        · refine iff_of_false ?_ ?_
          · rintro ⟨result, hresult, hsent⟩
            cases hresult
            obtain ⟨r, hr, -⟩ := hsent _ (if_pos hstatus)
            cases hr
          · rintro ⟨-, hsafe⟩
            rcases hsafe hlabel with hcall | ⟨h₂, hh₂, hne⟩
            · exact hrefused hcall
            · obtain rfl := Option.some.inj (hh.symm.trans hh₂)
              exact hne hstatus
        · refine iff_of_true ⟨_, rfl, fun x hx => ?_⟩ ⟨hfits, fun _ => .inr ⟨h, hh, hstatus⟩⟩
          rw [Call.result, if_neg hstatus] at hx
          cases hx
  · rw [Call.execute_of_not_fits hfits] at hexecute
    obtain ⟨rfl, rfl⟩ := Prod.mk.inj (Option.some.inj hexecute)
    refine iff_of_false ?_ fun hsafe => hfits hsafe.1
    rintro ⟨result, hresult, -⟩
    cases hresult

theorem belong_step (hs : s.Belong) (hstep : step device s a = some s') :
    Safe s a ∧ s'.Belong ∨ ¬ Safe s a ∧ ¬ s'.Belong := by
  obtain ⟨h, h', ended, hh, hexecute, hcalls⟩ := step_cases hstep
  have hiff := belongs_iff_safe hh hexecute
  by_cases hsafe : Safe s a
  · refine .inl ⟨hsafe, ?_⟩
    rw [System.Belong, hcalls, List.forall_mem_append, List.forall_mem_singleton]
    exact ⟨hs, hiff.mpr hsafe⟩
  · refine .inr ⟨hsafe, ?_⟩
    rw [System.Belong, hcalls, List.forall_mem_append, List.forall_mem_singleton]
    exact fun hall => hsafe (hiff.mp hall.2)

/-- A result that was not the call's own stays returned. -/
theorem not_belong_step (hs : ¬ s.Belong) (hstep : step device s a = some s') :
    ¬ s'.Belong := by
  obtain ⟨h, h', ended, -, -, hcalls⟩ := step_cases hstep
  rw [System.Belong, hcalls, List.forall_mem_append]
  exact fun hall => hs hall.1

/-- Over every sequence of calls, all results belong to their calls precisely when every call is
safe: its enclave delivers, or its data are refused, or the response buffer happens to hold an
error, and the nonce of an attestation fits. -/
theorem results_belong_iff {as : List Label} {t : System}
    (hrun : run (step device) .new as = some t) :
    t.Belong ↔ Along (step device) Safe .new as := by
  have hnew : System.new.Belong := fun f hf => absurd hf List.not_mem_nil
  have hcases : Along (step device) Safe .new as ∧ t.Belong ∨
      ¬ Along (step device) Safe .new as ∧ ¬ t.Belong :=
    along_or_trapped (fun _ _ _ => belong_step) (fun _ _ _ => not_belong_step) hnew hrun
  rcases hcases with ⟨halong, hbelong⟩ | ⟨hnot, hforeign⟩
  · exact iff_of_true hbelong halong
  · exact iff_of_false hforeign hnot

end Runs

/-- An enclave that signs everything alike. -/
def sampleDevice : Device := ⟨samplePubKey, fun _ => Vector.replicate 64 9⟩

/-- A key that is fetched, and data that are refused before their enclave runs. -/
theorem results_belong_safe :
    ∃ t, run (step sampleDevice) .new
        [⟨.getPubkey, .delivered (fun _ => none) 0⟩, ⟨.sign (zeroBytes 1025), .silent⟩] = some t ∧
      t.Belong := by
  have hends : (run (step sampleDevice) .new
      [⟨.getPubkey, .delivered (fun _ => none) 0⟩, ⟨.sign (zeroBytes 1025), .silent⟩]).isSome =
        true := by decide +kernel
  obtain ⟨t, ht⟩ := Option.isSome_iff_exists.mp hends
  refine ⟨t, ht, (results_belong_iff ht).mpr ?_⟩
  refine ⟨⟨trivial, fun hsilent => by cases hsilent⟩, fun s₁ _ => ⟨⟨trivial, ?_⟩, ?_⟩⟩
  · intro _
    have hlong : dataMaxLength < (zeroBytes 1025).length := by decide +kernel
    exact .inl hlong
  · exact fun _ _ => trivial

/-- After a key was fetched, a signature whose enclave delivers nothing is that key followed by
zeros. -/
theorem results_belong_stale :
    ¬ ∀ (device : Device) (as : List Label) (t : System),
      run (step device) .new as = some t → t.Belong := by
  intro hall
  have hrun : ((run (step sampleDevice) .new
      [⟨.getPubkey, .delivered (fun _ => none) 0⟩, ⟨.sign [1], .silent⟩]).any fun t =>
        decide ((⟨.sign [1], none, .returned (.ok (.signature
          (samplePubKey.toList ++ zeroBytes 32)))⟩ : Finished) ∈ t.calls)) = true := by
    decide +kernel
  obtain ⟨t, ht, hmem⟩ := exists_of_any hrun
  obtain ⟨result, hresult, hsent⟩ := hall _ _ t ht _ hmem
  cases hresult
  obtain ⟨r, hr, -⟩ := hsent _ rfl
  cases hr

end Bqti.Enclave
