import Bqti.Dht.Auth.Manager

/-!
# The attestation of an enclave

A report has two parts: the security monitor is signed by the key of the device, and the enclave
with the data it attested is signed by the key of the monitor. The verifier takes the length of
the data from the report before it has checked the signature over it, and compares the data with
the nonce as far as both go.
-/

namespace Bqti.Dht

open Bqti.Core

/-- The library for Ed25519 over SHA3-512: keys are read and signatures checked under them. -/
structure KeccakEd25519 (V : Type*) where
  fromBytes : Vector UInt8 32 → Option V
  rawVerify : V → Bytes → Vector UInt8 64 → Bool

/-- The part of the enclave, with the data it attested. -/
structure EnclaveReport where
  hash : Vector UInt8 64
  dataLen : UInt64
  data : Vector UInt8 1024
  signature : Vector UInt8 64

/-- The part of the security monitor. -/
structure SmReport where
  hash : Vector UInt8 64
  publicKey : Vector UInt8 32
  signature : Vector UInt8 64

/-- The report of a Keystone device: its enclave, its monitor and the key of the device. -/
structure KeystoneAttestReport where
  enclave : EnclaveReport
  sm : SmReport
  devPublicKey : Vector UInt8 32

/-- The key of the device that is trusted. -/
def sanctumDevPublicKey : Vector UInt8 32 := ⟨#[
  0x0f, 0xaa, 0xd4, 0xff, 0x01, 0x17, 0x85, 0x83, 0xba, 0xa5, 0x88, 0x96, 0x6f, 0x7c, 0x1f, 0xf3,
  0x25, 0x64, 0xdd, 0x17, 0xd7, 0xdc, 0x2b, 0x46, 0xcb, 0x50, 0xa8, 0x4a, 0x69, 0x27, 0x0b, 0x4c],
  rfl⟩

variable {V : Type*}

/-- Check a signature under a key that has to be read first. -/
def verifyKeccakEd25519 (lib : KeccakEd25519 V) (publicKey : Vector UInt8 32) (message : Bytes)
    (signature : Vector UInt8 64) : Bool :=
  match lib.fromBytes publicKey with
  | none => false
  | some pubKey => lib.rawVerify pubKey message signature

namespace KeystoneAttestReport

/-- What the device signs. -/
def smMsg (self : KeystoneAttestReport) : Bytes :=
  self.sm.hash.toList ++ self.sm.publicKey.toList

/-- The data that the report says were attested. -/
def attested (self : KeystoneAttestReport) : Bytes :=
  self.enclave.data.toList.take self.enclave.dataLen.toNat

/-- What the monitor signs. -/
def enclaveMsg (self : KeystoneAttestReport) : Bytes :=
  self.enclave.hash.toList ++ (be64 self.enclave.dataLen).reverse ++ self.attested

/-- Check a report against a nonce and the measurement of the enclave; `none` models the panic of
a slice that goes behind the data. -/
def verify (lib : KeccakEd25519 V) (self : KeystoneAttestReport) (nonce expectedHash : Bytes)
    (trustedDevKey : Vector UInt8 32) : Option Bool :=
  if trustedDevKey ≠ self.devPublicKey then some false
  else if !verifyKeccakEd25519 lib trustedDevKey self.smMsg self.sm.signature then some false
  else
    let dataLen := self.enclave.dataLen.toNat
    if dataLen > self.enclave.data.toList.length then none
    else if !verifyKeccakEd25519 lib self.sm.publicKey self.enclaveMsg self.enclave.signature then
      some false
    else if self.enclave.hash.toList ≠ expectedHash then some false
    else
      let nonceLen := min nonce.length dataLen
      some (decide (nonceLen > 0 ∧
        self.enclave.data.toList.take nonceLen = nonce.take nonceLen))

end KeystoneAttestReport

/-- A report, by the kind of the enclave. -/
inductive AttestReport
  | keystone (report : KeystoneAttestReport)

/-- Check a report against the key of the device maker. -/
def AttestReport.verify (lib : KeccakEd25519 V) (self : AttestReport)
    (nonce expectedHash : Bytes) : Option Bool :=
  match self with
  | .keystone r => r.verify lib nonce expectedHash sanctumDevPublicKey

namespace KeystoneAttestReport

variable {lib : KeccakEd25519 V} {report : KeystoneAttestReport} {nonce expectedHash : Bytes}
  {trustedDevKey : Vector UInt8 32}

/-- The part of the monitor is signed by the trusted device. -/
def DeviceSigned (lib : KeccakEd25519 V) (report : KeystoneAttestReport)
    (trustedDevKey : Vector UInt8 32) : Prop :=
  trustedDevKey = report.devPublicKey ∧
    verifyKeccakEd25519 lib trustedDevKey report.smMsg report.sm.signature = true

/-- The report was made by the expected enclave on a trusted device. -/
structure Genuine (lib : KeccakEd25519 V) (report : KeystoneAttestReport) (expectedHash : Bytes)
    (trustedDevKey : Vector UInt8 32) : Prop where
  device : report.DeviceSigned lib trustedDevKey
  monitor : verifyKeccakEd25519 lib report.sm.publicKey report.enclaveMsg
    report.enclave.signature = true
  measured : report.enclave.hash.toList = expectedHash

/-! ## Where the verifier panics -/

/-- A report that the device has not signed is not accepted. -/
theorem verify_of_not_signed (h : ¬ report.DeviceSigned lib trustedDevKey) :
    report.verify lib nonce expectedHash trustedDevKey = some false := by
  rw [verify]
  by_cases hkey : trustedDevKey = report.devPublicKey
  · have hsig : verifyKeccakEd25519 lib trustedDevKey report.smMsg report.sm.signature = false :=
      Bool.eq_false_iff.mpr fun hsig => h ⟨hkey, hsig⟩
    rw [if_neg (not_not_intro hkey), hsig]
    rfl
  · rw [if_pos hkey]

/-- What follows the check of the device. -/
theorem verify_of_signed (h : report.DeviceSigned lib trustedDevKey) :
    report.verify lib nonce expectedHash trustedDevKey =
      if report.enclave.dataLen.toNat > 1024 then none
      else if !verifyKeccakEd25519 lib report.sm.publicKey report.enclaveMsg
          report.enclave.signature then
        some false
      else if report.enclave.hash.toList ≠ expectedHash then some false
      else some (decide (min nonce.length report.enclave.dataLen.toNat > 0 ∧
        report.enclave.data.toList.take (min nonce.length report.enclave.dataLen.toNat) =
          nonce.take (min nonce.length report.enclave.dataLen.toNat))) := by
  rw [verify, if_neg (not_not_intro h.1), h.2]
  simp only [Vector.length_toList]
  rfl

/-- A signed report with more than 1024 bytes of data makes the verifier panic. -/
theorem verify_of_long (hsigned : report.DeviceSigned lib trustedDevKey)
    (hlen : 1024 < report.enclave.dataLen.toNat) :
    report.verify lib nonce expectedHash trustedDevKey = none := by
  rw [verify_of_signed hsigned, if_pos hlen]

/-- For every report and nonce the verifier returns precisely when the report says that no more
data were attested than it has room for, or is refused before, because its device is not the
trusted one or has not signed the part of the monitor. -/
theorem verify_total_iff (lib : KeccakEd25519 V) (report : KeystoneAttestReport)
    (nonce expectedHash : Bytes) (trustedDevKey : Vector UInt8 32) :
    (∃ accepted, report.verify lib nonce expectedHash trustedDevKey = some accepted) ↔
      report.enclave.dataLen.toNat ≤ 1024 ∨ ¬ report.DeviceSigned lib trustedDevKey := by
  by_cases hsigned : report.DeviceSigned lib trustedDevKey
  · rw [verify_of_signed hsigned]
    by_cases hlen : report.enclave.dataLen.toNat ≤ 1024
    · rw [if_neg (Nat.not_lt.mpr hlen)]
      refine iff_of_true ?_ (Or.inl hlen)
      split
      · exact ⟨_, rfl⟩
      · split <;> exact ⟨_, rfl⟩
    · rw [if_pos (Nat.lt_of_not_le hlen)]
      refine iff_of_false ?_ fun h => h.elim hlen fun hnot => hnot hsigned
      rintro ⟨accepted, h⟩
      cases h
  · rw [verify_of_not_signed hsigned]
    exact iff_of_true ⟨false, rfl⟩ (Or.inr hsigned)

/-! ## What a report is bound to -/

/-- Two lists agree as far as both go. -/
theorem take_min_eq_iff {α : Type*} {l l' : List α} :
    l.take (min l'.length l.length) = l'.take (min l'.length l.length) ↔
      l <+: l' ∨ l' <+: l := by
  rcases Nat.le_total l.length l'.length with hle | hle
  · rw [Nat.min_eq_right hle, List.take_length]
    refine ⟨fun h => Or.inl (List.prefix_iff_eq_take.mpr h), fun h => ?_⟩
    rcases h with h | h
    · exact List.prefix_iff_eq_take.mp h
    · rw [h.eq_of_length_le hle, List.take_length]
  · rw [Nat.min_eq_left hle, List.take_length]
    refine ⟨fun h => Or.inr (List.prefix_iff_eq_take.mpr h.symm), fun h => ?_⟩
    rcases h with h | h
    · rw [h.eq_of_length_le hle, List.take_length]
    · exact (List.prefix_iff_eq_take.mp h).symm

/-- The attested data is as long as the report says. -/
theorem length_attested (h : report.enclave.dataLen.toNat ≤ 1024) :
    report.attested.length = report.enclave.dataLen.toNat := by
  rw [attested, List.length_take, Vector.length_toList]
  exact Nat.min_eq_left h

/-- The comparison with the nonce. -/
theorem compared_iff (h : report.enclave.dataLen.toNat ≤ 1024) :
    (min nonce.length report.enclave.dataLen.toNat > 0 ∧
      report.enclave.data.toList.take (min nonce.length report.enclave.dataLen.toNat) =
        nonce.take (min nonce.length report.enclave.dataLen.toNat)) ↔
      nonce ≠ [] ∧ report.attested ≠ [] ∧
        (report.attested <+: nonce ∨ nonce <+: report.attested) := by
  have hdata : report.enclave.data.toList.take (min nonce.length report.enclave.dataLen.toNat) =
      report.attested.take (min nonce.length report.enclave.dataLen.toNat) := by
    rw [attested, List.take_take, Nat.min_assoc, Nat.min_self]
  rw [hdata, ← length_attested h, take_min_eq_iff, gt_iff_lt, Nat.lt_min, and_assoc,
    List.length_pos_iff, List.length_pos_iff]

/-- What the verifier accepts: a genuine report that attests something, and agrees with the nonce
as far as both go. -/
theorem verify_eq_true_iff : report.verify lib nonce expectedHash trustedDevKey = some true ↔
    report.Genuine lib expectedHash trustedDevKey ∧ report.enclave.dataLen.toNat ≤ 1024 ∧
      nonce ≠ [] ∧ report.attested ≠ [] ∧
        (report.attested <+: nonce ∨ nonce <+: report.attested) := by
  by_cases hsigned : report.DeviceSigned lib trustedDevKey
  · rw [verify_of_signed hsigned]
    by_cases hlen : report.enclave.dataLen.toNat ≤ 1024
    · rw [if_neg (Nat.not_lt.mpr hlen), ← compared_iff hlen]
      by_cases hmonitor : verifyKeccakEd25519 lib report.sm.publicKey report.enclaveMsg
          report.enclave.signature = true
      · rw [hmonitor, Bool.not_true, if_neg Bool.false_ne_true]
        by_cases hhash : report.enclave.hash.toList = expectedHash
        · rw [if_neg (not_not_intro hhash), Option.some.injEq, decide_eq_true_eq]
          exact ⟨fun h => ⟨⟨hsigned, hmonitor, hhash⟩, hlen, h⟩, fun h => h.2.2⟩
        · rw [if_pos hhash]
          exact iff_of_false (by simp) fun h => hhash h.1.measured
      · rw [Bool.not_eq_true] at hmonitor
        rw [hmonitor, Bool.not_false, if_pos rfl]
        exact iff_of_false (by simp) fun h => by simp [h.1.monitor] at hmonitor
    · rw [if_pos (Nat.lt_of_not_le hlen)]
      exact iff_of_false (by simp) fun h => hlen h.2.1
  · rw [verify_of_not_signed hsigned]
    exact iff_of_false (by simp) fun h => hsigned h.1.device

/-- An accepted report attests the whole nonce, and is accepted for no other nonce as long. -/
structure Binds (lib : KeccakEd25519 V) (report : KeystoneAttestReport)
    (nonce expectedHash : Bytes) (trustedDevKey : Vector UInt8 32) : Prop where
  whole : report.verify lib nonce expectedHash trustedDevKey = some true →
    nonce <+: report.attested
  only : ∀ other, other.length = nonce.length →
    report.verify lib nonce expectedHash trustedDevKey = some true →
    report.verify lib other expectedHash trustedDevKey = some true → other = nonce

/-- For every report, nonce and measurement the report binds the nonce precisely unless it is
genuine and attests a part of the nonce from its beginning, which is neither empty nor all of
it. -/
theorem binds_iff (lib : KeccakEd25519 V) (report : KeystoneAttestReport)
    (nonce expectedHash : Bytes) (trustedDevKey : Vector UInt8 32) :
    report.Binds lib nonce expectedHash trustedDevKey ↔
      ¬ (report.Genuine lib expectedHash trustedDevKey ∧
        report.enclave.dataLen.toNat ≤ 1024 ∧ report.attested ≠ [] ∧
          report.attested <+: nonce ∧ report.attested ≠ nonce) := by
  constructor
  · rintro hbinds ⟨hgenuine, hlen, hsome, hpart, hne⟩
    have hnonce : nonce ≠ [] := fun h => hsome (List.prefix_nil.mp (h ▸ hpart))
    have hwhole := hbinds.whole
      (verify_eq_true_iff.mpr ⟨hgenuine, hlen, hnonce, hsome, Or.inl hpart⟩)
    exact hne (hpart.eq_of_length_le hwhole.length_le)
  · intro hnot
    have hwhole : report.verify lib nonce expectedHash trustedDevKey = some true →
        nonce <+: report.attested := by
      intro h
      obtain ⟨hgenuine, hlen, -, hsome, hpart | hpart⟩ := verify_eq_true_iff.mp h
      · by_cases heq : report.attested = nonce
        · exact heq ▸ List.prefix_rfl
        · exact absurd ⟨hgenuine, hlen, hsome, hpart, heq⟩ hnot
      · exact hpart
    refine ⟨hwhole, fun other hsame h hother => ?_⟩
    -- what is attested reaches at least as far as the other nonce, and so begins with it too
    have hle : other.length ≤ report.attested.length := hsame ▸ (hwhole h).length_le
    have hbegin : other <+: report.attested := by
      obtain ⟨-, -, -, -, hpart | hpart⟩ := verify_eq_true_iff.mp hother
      · exact (hpart.eq_of_length_le hle) ▸ List.prefix_rfl
      · exact hpart
    exact (List.prefix_of_prefix_length_le hbegin (hwhole h)
      (Nat.le_of_eq hsame)).eq_of_length hsame

/-- What stands behind a platform that is trusted: a genuine report, and if it attests at least as
many bytes as the value of the proof of work has, they begin with that value. -/
theorem report_of_attested {D : Type*} {bytes : D → Bytes}
    {verifyReport : AttestReport → D → Bytes → Bool} {manifest : Option Bytes}
    {secret : PoW D AttestReport}
    (hreport : ∀ report value expectedHash, verifyReport report value expectedHash = true →
      report.verify lib (bytes value) expectedHash = some true)
    (h : trustLevel verifyReport manifest secret = .ok .attested) :
    ∃ report expectedHash, secret.attestation = some (.keystone report) ∧
      manifest = some expectedHash ∧
      report.Genuine lib expectedHash sanctumDevPublicKey ∧
      ((bytes secret.value).length ≤ report.enclave.dataLen.toNat →
        bytes secret.value <+: report.attested) := by
  unfold trustLevel at h
  split at h
  · cases h
  · rename_i report hattestation
    split at h
    · cases h
    · rename_i expectedHash
      split at h
      · rename_i hverify
        obtain ⟨report⟩ := report
        obtain ⟨hgenuine, hlen, -, -, hpart⟩ :=
          verify_eq_true_iff.mp (hreport _ _ _ hverify)
        refine ⟨report, expectedHash, hattestation, rfl, hgenuine, fun hle => ?_⟩
        rcases hpart with hpart | hpart
        · rw [← length_attested hlen] at hle
          exact hpart.eq_of_length_le hle ▸ List.prefix_rfl
        · exact hpart
      · cases h

/-! ## Reports that the verifier gets wrong -/

/-- The part of a monitor whose measurement is zero, as the key of the device signs it. -/
def sampleMonitor : SmReport where
  hash := Vector.replicate 64 0
  publicKey := numeralVector 32
    0x5103482b725aaa8fc7b62a0fbb6be47c6aebd9d5787108d4965f3d0bfe4d8a71
  signature := numeralVector 64 (
    0xcf0472c73f8209c92bf371d675ed45e0b83de36732d2233e37f34d8d8b249f9b * 2 ^ 256 +
    0xdf48c7878138db9ae25bc904b588084b72643a48818232eb0652ecc6c14bd704)

/-- An enclave that was asked to attest a single byte. -/
def sampleEnclave : EnclaveReport where
  hash := Vector.replicate 64 1
  dataLen := 1
  data := Vector.ofFn fun i => if i.val = 0 then 0xab else 0
  signature := numeralVector 64 (
    0xb28ebbc2c4abc7d92ba8770c36a147e939b39e8f1ead93d1ce96ebc4f4505f34 * 2 ^ 256 +
    0x140d23ea48323700758adc224ebf5679950d8fbb5ed6ae1b91593e5e7eecd108)

/-- The report of the sample enclave and monitor under the key of the device maker. -/
def sampleReport : KeystoneAttestReport where
  enclave := sampleEnclave
  sm := sampleMonitor
  devPublicKey := sanctumDevPublicKey

/-- The signatures over the sample report are the only ones that are accepted. -/
def sampleLib : KeccakEd25519 (Vector UInt8 32) where
  fromBytes := some
  rawVerify publicKey message signature :=
    decide (publicKey = sanctumDevPublicKey ∧ message = sampleReport.smMsg ∧
        signature = sampleMonitor.signature ∨
      publicKey = sampleMonitor.publicKey ∧ message = sampleReport.enclaveMsg ∧
        signature = sampleEnclave.signature)

/-- A value of 32 bytes, the first of them the one that is attested. -/
def sampleValue (second : UInt8) : Bytes :=
  0xab :: second :: List.replicate 30 0

/-- The sample library accepts the two signatures of the sample report only. -/
theorem verify_sampleLib {publicKey : Vector UInt8 32} {message : Bytes}
    {signature : Vector UInt8 64} :
    verifyKeccakEd25519 sampleLib publicKey message signature = true ↔
      publicKey = sanctumDevPublicKey ∧ message = sampleReport.smMsg ∧
          signature = sampleMonitor.signature ∨
        publicKey = sampleMonitor.publicKey ∧ message = sampleReport.enclaveMsg ∧
          signature = sampleEnclave.signature :=
  decide_eq_true_iff

/-- The sample report is genuine. -/
theorem genuine_sampleReport :
    sampleReport.Genuine sampleLib (List.replicate 64 1) sanctumDevPublicKey where
  device := ⟨rfl, verify_sampleLib.mpr (Or.inl ⟨rfl, rfl, rfl⟩)⟩
  monitor := verify_sampleLib.mpr (Or.inr ⟨rfl, rfl, rfl⟩)
  measured := Vector.toList_replicate

/-- The report is accepted for two values that have only their first byte in common. -/
theorem accepted_for_both :
    sampleReport.verify sampleLib (sampleValue 1) (List.replicate 64 1) sanctumDevPublicKey =
        some true ∧
      sampleReport.verify sampleLib (sampleValue 2) (List.replicate 64 1) sanctumDevPublicKey =
        some true ∧
      ¬ sampleReport.Binds sampleLib (sampleValue 1) (List.replicate 64 1)
        sanctumDevPublicKey := by
  have hattested : sampleReport.attested = [0xab] := by decide +kernel
  have haccepted : ∀ second, sampleReport.verify sampleLib (sampleValue second)
      (List.replicate 64 1) sanctumDevPublicKey = some true := by
    intro second
    refine verify_eq_true_iff.mpr ⟨genuine_sampleReport, by decide, List.cons_ne_nil _ _, ?_⟩
    rw [hattested]
    exact ⟨List.cons_ne_nil _ _, Or.inl ⟨second :: List.replicate 30 0, rfl⟩⟩
  refine ⟨haccepted 1, haccepted 2, fun h => ?_⟩
  exact absurd (h.only (sampleValue 2) rfl (haccepted 1) (haccepted 2)) (by decide)

/-- The same part of the monitor, sent on with a length that goes behind the data. -/
def longReport : KeystoneAttestReport :=
  { sampleReport with enclave := { sampleEnclave with dataLen := 1025 } }

/-- A length of 1025 makes the verifier look behind the data. -/
theorem slice_behind_data :
    longReport.verify sampleLib (sampleValue 1) (List.replicate 64 1) sanctumDevPublicKey =
      none :=
  verify_of_long ⟨rfl, verify_sampleLib.mpr (Or.inl ⟨rfl, rfl, rfl⟩)⟩ (by decide)

end KeystoneAttestReport

end Bqti.Dht
