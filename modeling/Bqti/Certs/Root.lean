import Mathlib.Data.List.TakeDrop
import Bqti.Core.Crash

/-!
# The identity of a node on disk

A node keeps the certificate and the private key of its identity in two files, written one after
the other. A start reads both; if it cannot, it makes a new identity and writes that. Nothing checks
that the certificate belongs to the key. The command that issues certificates makes the identity in
the same way and stores it once more in a directory of choice, which is the same one by default;
a leaf goes into the same two files.
-/

namespace Bqti.Certs

open Bqti.Core

/-- The reading and writing of private keys. -/
structure KeyCodec (K : Type*) where
  fromDer : Bytes → Option K
  serializeDer : K → Bytes

/-- A key that was written is read back, and what is missing bytes is no key. -/
structure KeyCodec.Lawful {K : Type*} (codec : KeyCodec K) : Prop where
  whole : ∀ key, codec.fromDer (codec.serializeDer key) = some key
  cut : ∀ key n, n < (codec.serializeDer key).length →
    codec.fromDer ((codec.serializeDer key).take n) = none

/-- A private key with a certificate. -/
structure SoftwareKeyIdentity (K : Type*) where
  keyPair : K
  certDer : Bytes

namespace SoftwareKeyIdentity

variable {K : Type*}

/-- The certificate is taken as it is. -/
def fromBytesDer (codec : KeyCodec K) (certBytes privKeyBytes : Bytes) :
    Option (SoftwareKeyIdentity K) :=
  (codec.fromDer privKeyBytes).map fun keyPair => ⟨keyPair, certBytes⟩

/-- The certificate and the key as the two files hold them. -/
def toBytesDer (codec : KeyCodec K) (self : SoftwareKeyIdentity K) : Bytes × Bytes :=
  (self.certDer, codec.serializeDer self.keyPair)

end SoftwareKeyIdentity

/-- Where the certificate of an identity is saved. -/
def certificateRootPath : String := "ca.der"

/-- Where the key of an identity is saved. -/
def privateKeyPath : String := "root_pk.der"

section Commands

variable {K D : Type*} [DecidableEq D] (codec : KeyCodec K)

/-- Write the certificate and then the key. -/
def storeCert (cert : SoftwareKeyIdentity K) (dir : D) : List (FileAct (D × String)) :=
  let (certDer, pkDer) := cert.toBytesDer codec
  [.write (dir, certificateRootPath) certDer, .write (dir, privateKeyPath) pkDer]

/-- Read the identity in a directory. -/
def readCert (fs : Files (D × String)) (dir : D) : Option (SoftwareKeyIdentity K) :=
  (fs (dir, certificateRootPath)).bind fun ca =>
    (fs (dir, privateKeyPath)).bind fun pk => SoftwareKeyIdentity.fromBytesDer codec ca pk

/-- The identity of a start and what it writes. The system may fail to read files that are there. -/
def makeCaRoot (certsDir : D) (fs : Files (D × String)) (fails : Bool)
    (root : SoftwareKeyIdentity K) : SoftwareKeyIdentity K × List (FileAct (D × String)) :=
  match if fails then none else readCert codec fs certsDir with
  | some certificate => (certificate, [])
  | none => (root, storeCert codec root certsDir)

/-- What the command is asked for. -/
inductive CertType
  | root
  | leaf
  deriving DecidableEq, Repr

/-- What the command writes. -/
def handleCerts (certsDir : D) (fs : Files (D × String)) (kind : CertType) (output : Option D)
    (fails : Bool) (root leaf : SoftwareKeyIdentity K) : List (FileAct (D × String)) :=
  let dir := output.getD certsDir
  let (caRoot, acts) := makeCaRoot codec certsDir fs fails root
  match kind with
  | .root => acts ++ storeCert codec caRoot dir
  | .leaf => acts ++ (storeCert codec caRoot dir ++ storeCert codec leaf dir)

/-- A start or a command: whether its reads fail, what is generated for it, and where it stops. -/
inductive Op (K D : Type*)
  | serve (fails : Bool) (root : SoftwareKeyIdentity K) (stop : Option Stop)
  | certs (kind : CertType) (output : Option D) (fails : Bool)
      (root leaf : SoftwareKeyIdentity K) (stop : Option Stop)

/-- What a start or a command writes. -/
def Op.acts (certsDir : D) (fs : Files (D × String)) : Op K D → List (FileAct (D × String))
  | .serve fails root _ => (makeCaRoot codec certsDir fs fails root).2
  | .certs kind output fails root leaf _ =>
      handleCerts codec certsDir fs kind output fails root leaf

/-- Where a start or a command stops. -/
def Op.stop : Op K D → Option Stop
  | .serve _ _ stop | .certs _ _ _ _ _ stop => stop

/-- The files afterwards. -/
def apply (certsDir : D) (fs : Files (D × String)) (op : Op K D) : Files (D × String) :=
  executed fs (op.acts codec certsDir fs) op.stop

/-- The files after starts and commands. -/
def run (certsDir : D) (fs : Files (D × String)) (ops : List (Op K D)) : Files (D × String) :=
  ops.foldl (apply codec certsDir) fs

/-- The identity that a node goes on with, if the start gets so far. -/
def served (certsDir : D) (fs : Files (D × String)) : Op K D → Option (SoftwareKeyIdentity K)
  | .serve fails root none => some (makeCaRoot codec certsDir fs fails root).1
  | _ => none

end Commands

variable {K D : Type*} [DecidableEq D] {codec : KeyCodec K} {certsDir dir : D}
  {fs : Files (D × String)} {id cert root leaf : SoftwareKeyIdentity K} {stop : Option Stop}

/-! ## The two files -/

omit [DecidableEq D] in
/-- The two files of an identity have different names. -/
theorem certificate_ne_key (dir dir' : D) :
    (dir, certificateRootPath) ≠ (dir', privateKeyPath) := by
  have hnames : certificateRootPath ≠ privateKeyPath := by decide
  exact fun heq => hnames (congrArg Prod.snd heq)

omit [DecidableEq D] in
/-- An identity is read if both files are there and its key can be read. -/
theorem readCert_eq_some_iff : readCert codec fs dir = some id ↔
    fs (dir, certificateRootPath) = some id.certDer ∧
      ∃ pk, fs (dir, privateKeyPath) = some pk ∧ codec.fromDer pk = some id.keyPair := by
  obtain ⟨key, der⟩ := id
  simp only [readCert, Option.bind_eq_some_iff, SoftwareKeyIdentity.fromBytesDer,
    Option.map_eq_some_iff, SoftwareKeyIdentity.mk.injEq]
  constructor
  · rintro ⟨ca, hca, pk, hpk, key', hkey, rfl, rfl⟩
    exact ⟨hca, pk, hpk, hkey⟩
  · rintro ⟨hca, pk, hpk, hkey⟩
    exact ⟨der, hca, pk, hpk, key, hkey, rfl, rfl⟩

/-- The certificate file after an identity was stored. -/
theorem executed_storeCert_certificate :
    executed fs (storeCert codec cert dir) stop (dir, certificateRootPath) =
      (leaves cert.certDer stop).or (fs (dir, certificateRootPath)) := by
  have hsplit : storeCert codec cert dir = [.write (dir, certificateRootPath) cert.certDer] ++
      [.write (dir, privateKeyPath) (codec.serializeDer cert.keyPair)] := rfl
  rw [hsplit, executed_append, executed_other, executed_write]
  intro act hact
  rw [List.mem_singleton.mp hact, FileAct.paths, List.mem_singleton]
  exact certificate_ne_key dir dir

/-- The key file after an identity was stored. -/
theorem executed_storeCert_key :
    executed fs (storeCert codec cert dir) stop (dir, privateKeyPath) =
      (leaves (codec.serializeDer cert.keyPair) (past 1 stop)).or (fs (dir, privateKeyPath)) := by
  have hsplit : storeCert codec cert dir = [.write (dir, certificateRootPath) cert.certDer] ++
      [.write (dir, privateKeyPath) (codec.serializeDer cert.keyPair)] := rfl
  rw [hsplit, executed_append, executed_write, executed_other]
  · rfl
  · intro act hact
    rw [List.mem_singleton.mp hact, FileAct.paths, List.mem_singleton]
    exact (certificate_ne_key dir dir).symm

/-- Storing an identity in another directory. -/
theorem executed_storeCert_elsewhere {other : D} (hne : other ≠ dir) (name : String) :
    executed fs (storeCert codec cert other) stop (dir, name) = fs (dir, name) := by
  refine executed_other (fun act hact => ?_) stop
  simp only [storeCert, SoftwareKeyIdentity.toBytesDer, List.mem_cons, List.not_mem_nil,
    or_false] at hact
  rcases hact with rfl | rfl
  all_goals
    rw [FileAct.paths, List.mem_singleton]
    exact fun heq => hne (congrArg Prod.fst heq).symm

/-! ## When the identity is kept -/

/-- Nothing was done. -/
def Untouched (stop : Option Stop) : Prop := stop = some ⟨0, none⟩

/-- The identity itself is stored again, and no file is left with less than all of it. -/
def Rewritten (codec : KeyCodec K) (id : SoftwareKeyIdentity K) (stop : Option Stop) : Prop :=
  (∀ n, stop = some ⟨0, some n⟩ → id.certDer.length ≤ n) ∧
    ∀ n, stop = some ⟨1, some n⟩ → (codec.serializeDer id.keyPair).length ≤ n

/-- What does not change the identity that a node reads: a start whose reads succeed, and a command
that stores elsewhere, or stops neither in the middle of a file nor behind the first byte of a leaf.
A start or a command whose reads fail must stop before it writes anything. -/
def Harmless (codec : KeyCodec K) (certsDir : D) (id : SoftwareKeyIdentity K) : Op K D → Prop
  | .serve fails _ stop => fails = true → Untouched stop
  | .certs kind output fails _ _ stop =>
      if fails then Untouched stop
      else output.getD certsDir = certsDir →
        Rewritten codec id stop ∧ (kind = .leaf → Untouched (past 2 stop))

/-- No certificate that is generated begins with the one of the identity. -/
def Op.Foreign (id : SoftwareKeyIdentity K) : Op K D → Prop
  | .serve _ root _ => ¬ id.certDer <+: root.certDer
  | .certs _ _ _ root leaf _ => ¬ id.certDer <+: root.certDer ∧ ¬ id.certDer <+: leaf.certDer

/-- A file holds nothing after a stop if it was not touched. -/
theorem leaves_eq_none_iff {bytes : Bytes} : leaves bytes stop = none ↔ Untouched stop := by
  cases stop with
  | none => simp [leaves, Untouched]
  | some stop =>
    obtain ⟨after, written⟩ := stop
    cases after <;> cases written <;> simp [leaves, Untouched]

/-- A whole file is left by a write that is not cut. -/
theorem leaves_eq_or_none_iff {bytes : Bytes} : (leaves bytes stop).or (some bytes) = some bytes ↔
    ∀ n, stop = some ⟨0, some n⟩ → bytes.length ≤ n := by
  cases stop with
  | none => simp [leaves]
  | some stop =>
    obtain ⟨after, written⟩ := stop
    cases after <;> cases written <;> simp [leaves, List.take_eq_self_iff]

/-- A key is read behind a write of it that is not cut. -/
theorem fromDer_leaves_iff (hlaw : codec.Lawful) {key : K} {pk : Bytes}
    (hkey : codec.fromDer pk = some key) :
    (∃ bytes, (leaves (codec.serializeDer key) stop).or (some pk) = some bytes ∧
      codec.fromDer bytes = some key) ↔
      ∀ n, stop = some ⟨0, some n⟩ → (codec.serializeDer key).length ≤ n := by
  cases stop with
  | none => simp [leaves, hlaw.whole]
  | some stop =>
    obtain ⟨after, written⟩ := stop
    cases after with
    | succ k => simp [leaves, hlaw.whole]
    | zero =>
      cases written with
      | none => simp [leaves, hkey]
      | some n =>
        by_cases hlong : (codec.serializeDer key).length ≤ n
        · simp [leaves, List.take_of_length_le hlong, hlaw.whole, hlong]
        · simp [leaves, hlaw.cut key n (Nat.lt_of_not_le hlong), hlong]

/-- Past the first action a stop tears the second one. -/
theorem past_one_eq_iff {n : Nat} : past 1 stop = some ⟨0, some n⟩ ↔ stop = some ⟨1, some n⟩ := by
  cases stop with
  | none => simp [past]
  | some stop =>
    obtain ⟨after, written⟩ := stop
    cases after with
    | zero => simp [past]
    | succ k => simp [past]

/-- The identity is stored again. -/
theorem readCert_rewritten_iff (hlaw : codec.Lawful) (hread : readCert codec fs dir = some id) :
    readCert codec (executed fs (storeCert codec id dir) stop) dir = some id ↔
      Rewritten codec id stop := by
  obtain ⟨hcertificate, pk, hpk, hkey⟩ := readCert_eq_some_iff.mp hread
  rw [readCert_eq_some_iff, executed_storeCert_certificate, executed_storeCert_key, hcertificate,
    hpk, leaves_eq_or_none_iff, fromDer_leaves_iff hlaw hkey, Rewritten]
  simp only [past_one_eq_iff]

/-- An identity that does not begin with the certificate is stored, and something of it is written:
the certificate is gone. -/
theorem certificate_lost (hforeign : ¬ id.certDer <+: cert.certDer) (h : ¬ Untouched stop) :
    executed fs (storeCert codec cert dir) stop (dir, certificateRootPath) ≠ some id.certDer := by
  rw [executed_storeCert_certificate]
  cases hleft : leaves cert.certDer stop with
  | none => exact absurd (leaves_eq_none_iff.mp hleft) h
  | some left =>
    rw [Option.some_or]
    intro heq
    cases heq
    exact hforeign (isPrefix_of_leaves hleft)

/-- It does not come back while such identities are stored. -/
theorem certificate_stays_lost {other : D} (hforeign : ¬ id.certDer <+: cert.certDer)
    (hlost : fs (dir, certificateRootPath) ≠ some id.certDer) :
    executed fs (storeCert codec cert other) stop (dir, certificateRootPath) ≠ some id.certDer := by
  by_cases hsame : other = dir
  · subst hsame
    by_cases huntouched : Untouched stop
    · rwa [huntouched]
    · exact certificate_lost hforeign huntouched
  · rwa [executed_storeCert_elsewhere hsame]

omit [DecidableEq D] in
/-- An identity without its certificate is not read. -/
theorem readCert_ne_of_lost (hlost : fs (dir, certificateRootPath) ≠ some id.certDer) :
    readCert codec fs dir ≠ some id := fun hread => hlost (readCert_eq_some_iff.mp hread).1

/-- What is stored elsewhere does not change what is read here. -/
theorem readCert_elsewhere {other : D} (hne : other ≠ dir) :
    readCert codec (executed fs (storeCert codec cert other) stop) dir = readCert codec fs dir := by
  simp only [readCert, executed_storeCert_elsewhere hne]

/-- A command whose reads fail. -/
theorem readCert_handleCerts_failed {kind : CertType} {output : Option D}
    (hroot : ¬ id.certDer <+: root.certDer) (hleaf : ¬ id.certDer <+: leaf.certDer)
    (h : ¬ Untouched stop) :
    readCert codec (executed fs (handleCerts codec certsDir fs kind output true root leaf) stop)
      certsDir ≠ some id := by
  have hlost : executed fs (storeCert codec root certsDir) stop (certsDir, certificateRootPath) ≠
      some id.certDer := certificate_lost hroot h
  apply readCert_ne_of_lost
  cases kind with
  | root =>
    simp only [handleCerts, makeCaRoot, if_true, executed_append]
    exact certificate_stays_lost hroot hlost
  | leaf =>
    simp only [handleCerts, makeCaRoot, if_true, executed_append]
    exact certificate_stays_lost hleaf (certificate_stays_lost hroot hlost)

/-- A command whose reads succeed. -/
theorem readCert_handleCerts_iff (hlaw : codec.Lawful) {kind : CertType} {output : Option D}
    (hleaf : ¬ id.certDer <+: leaf.certDer) (hread : readCert codec fs certsDir = some id) :
    readCert codec (executed fs (handleCerts codec certsDir fs kind output false root leaf) stop)
        certsDir = some id ↔
      (output.getD certsDir = certsDir →
        Rewritten codec id stop ∧ (kind = .leaf → Untouched (past 2 stop))) := by
  by_cases hdir : output.getD certsDir = certsDir
  · have hsame : readCert codec (executed fs (storeCert codec id certsDir) stop) certsDir =
        some id ↔ Rewritten codec id stop := readCert_rewritten_iff hlaw hread
    cases kind with
    | root =>
      simp [handleCerts, makeCaRoot, hread, hdir, hsame]
    | leaf =>
      have hacts : handleCerts codec certsDir fs .leaf output false root leaf =
          storeCert codec id certsDir ++ storeCert codec leaf certsDir := by
        simp [handleCerts, makeCaRoot, hread, hdir]
      have hlength : (storeCert codec id certsDir).length = 2 := rfl
      rw [hacts, executed_append, hlength]
      by_cases huntouched : Untouched (past 2 stop)
      · rw [huntouched, executed_untouched, hsame]
        simp [hdir, Untouched]
      · refine iff_of_false (readCert_ne_of_lost (certificate_lost hleaf huntouched)) ?_
        exact fun hboth => huntouched ((hboth hdir).2 rfl)
  · refine iff_of_true ?_ fun heq => absurd heq hdir
    cases kind with
    | root => simp [handleCerts, makeCaRoot, hread, readCert_elsewhere hdir]
    | leaf => simp [handleCerts, makeCaRoot, hread, executed_append, readCert_elsewhere hdir]

/-- One start or command keeps the identity precisely if it is harmless. -/
theorem readCert_apply_iff (hlaw : codec.Lawful) {op : Op K D} (hforeign : op.Foreign id)
    (hread : readCert codec fs certsDir = some id) :
    readCert codec (apply codec certsDir fs op) certsDir = some id ↔
      Harmless codec certsDir id op := by
  cases op with
  | serve fails root stop =>
    cases fails with
    | false => simp [apply, Op.acts, Op.stop, makeCaRoot, hread, Harmless, executed_nil]
    | true =>
      by_cases huntouched : Untouched stop
      · have hsame : apply codec certsDir fs (.serve true root stop) = fs := by
          rw [apply, Op.stop, huntouched, executed_untouched]
        rw [hsame]
        exact iff_of_true hread fun _ => huntouched
      · refine iff_of_false ?_ fun hharmless => huntouched (hharmless rfl)
        exact readCert_ne_of_lost (certificate_lost hforeign huntouched)
  | certs kind output fails root leaf stop =>
    cases fails with
    | false => exact readCert_handleCerts_iff hlaw hforeign.2 hread
    | true =>
      by_cases huntouched : Untouched stop
      · have hsame : apply codec certsDir fs (.certs kind output true root leaf stop) = fs := by
          rw [apply, Op.stop, huntouched, executed_untouched]
        rw [hsame]
        exact iff_of_true hread huntouched
      · exact iff_of_false (readCert_handleCerts_failed hforeign.1 hforeign.2 huntouched) huntouched

/-- A node that has an identity reads it behind every start and command of a run precisely if all
of them are harmless. -/
theorem identity_kept_iff (hlaw : codec.Lawful) {ops : List (Op K D)}
    (hforeign : ∀ op ∈ ops, op.Foreign id) (hread : readCert codec fs certsDir = some id) :
    (∀ k, readCert codec (run codec certsDir fs (ops.take k)) certsDir = some id) ↔
      ∀ op ∈ ops, Harmless codec certsDir id op := by
  induction ops generalizing fs with
  | nil => simpa [run] using hread
  | cons op ops ih =>
    obtain ⟨hop, hops⟩ := List.forall_mem_cons.mp hforeign
    have hstep := readCert_apply_iff hlaw hop hread
    rw [List.forall_mem_cons, ← hstep]
    constructor
    · intro hall
      have hone : readCert codec (apply codec certsDir fs op) certsDir = some id := hall 1
      exact ⟨hone, (ih hops hone).mp fun k => hall (k + 1)⟩
    · rintro ⟨hone, hrest⟩ k
      cases k with
      | zero => exact hread
      | succ k => exact (ih hops hone).mpr hrest k

/-- Keys of one byte behind a mark. -/
def sampleCodec : KeyCodec UInt8 where
  fromDer
    | [1, key] => some key
    | _ => none
  serializeDer key := [1, key]

/-- The sample codec reads back the keys that it writes. -/
theorem lawful_sampleCodec : sampleCodec.Lawful where
  whole _ := rfl
  cut key n hn := by
    match n, hn with
    | 0, _ => rfl
    | 1, _ => rfl

/-- A leaf is issued without a directory for it. -/
theorem identity_kept_leaf : ¬ ∀ k, readCert sampleCodec (run sampleCodec ()
    (executed (fun _ => none) (storeCert sampleCodec ⟨1, [10]⟩ ()) none)
    ([.certs .leaf none false ⟨2, [20]⟩ ⟨3, [30]⟩ none].take k)) () = some ⟨1, [10]⟩ := by
  rw [identity_kept_iff lawful_sampleCodec (by simp [Op.Foreign]) (by rfl)]
  simp [Harmless, past, Untouched]

/-! ## The first identity -/

/-- The identity that is generated for a start or a command. -/
def Op.generated : Op K D → SoftwareKeyIdentity K
  | .serve _ root _ | .certs _ _ _ root _ _ => root

/-- A start, or a command that stores elsewhere, whose reads succeed. -/
def Gentle (certsDir : D) : Op K D → Prop
  | .serve fails _ _ => fails = false
  | .certs _ output fails _ _ _ => fails = false ∧ output.getD certsDir ≠ certsDir

/-- The key of the generated identity is written to the end. -/
def Op.founds (codec : KeyCodec K) (op : Op K D) : Bool :=
  leaves (codec.serializeDer op.generated.keyPair) (past 1 op.stop) ==
    some (codec.serializeDer op.generated.keyPair)

/-- The first generated identity whose key is written to the end. -/
def founder (codec : KeyCodec K) : List (Op K D) → Option (SoftwareKeyIdentity K)
  | [] => none
  | op :: ops => if op.founds codec then some op.generated else founder codec ops

/-- There is no key that could be read. -/
def Vacant (codec : KeyCodec K) (certsDir : D) (fs : Files (D × String)) : Prop :=
  ∀ pk, fs (certsDir, privateKeyPath) = some pk → codec.fromDer pk = none

omit [DecidableEq D] in
/-- No identity is read from a vacant directory. -/
theorem Vacant.readCert_eq_none (h : Vacant codec certsDir fs) :
    readCert codec fs certsDir = none := by
  rw [Option.eq_none_iff_forall_ne_some]
  intro id hread
  obtain ⟨-, pk, hpk, hkey⟩ := readCert_eq_some_iff.mp hread
  rw [h pk hpk] at hkey
  cases hkey

/-- In the directory of the node a gentle start or command does what a start does. -/
theorem apply_gentle {op : Op K D} (h : Gentle certsDir op) (name : String) :
    apply codec certsDir fs op (certsDir, name) =
      executed fs (makeCaRoot codec certsDir fs false op.generated).2 op.stop (certsDir, name) := by
  cases op with
  | serve fails root stop =>
    cases h
    rfl
  | certs kind output fails root leaf stop =>
    obtain ⟨rfl, helsewhere⟩ := h
    cases kind with
    | root =>
      simp [apply, Op.acts, Op.stop, Op.generated, handleCerts, executed_append,
        executed_storeCert_elsewhere helsewhere]
    | leaf =>
      simp [apply, Op.acts, Op.stop, Op.generated, handleCerts, executed_append,
        executed_storeCert_elsewhere helsewhere]

/-- An identity that is there stays. -/
theorem readCert_gentle {op : Op K D} (h : Gentle certsDir op)
    (hread : readCert codec fs certsDir = some id) :
    readCert codec (apply codec certsDir fs op) certsDir = some id := by
  rw [← hread]
  simp only [readCert, apply_gentle h]
  have hnothing : (makeCaRoot codec certsDir fs false op.generated).2 = [] := by
    simp [makeCaRoot, hread]
  rw [hnothing, executed_nil]

/-- Gentle operations keep the identity that is read. -/
theorem readCert_gentle_run {ops : List (Op K D)} (h : ∀ op ∈ ops, Gentle certsDir op)
    (hread : readCert codec fs certsDir = some id) :
    readCert codec (run codec certsDir fs ops) certsDir = some id := by
  induction ops generalizing fs with
  | nil => exact hread
  | cons op ops ih =>
    obtain ⟨hop, hops⟩ := List.forall_mem_cons.mp h
    exact ih hops (readCert_gentle hop hread)

/-- The key is written only behind the whole certificate. -/
theorem leaves_of_past {bytes other left : Bytes} (h : leaves bytes (past 1 stop) = some left) :
    leaves other stop = some other := by
  cases stop with
  | none => rfl
  | some stop =>
    obtain ⟨after, written⟩ := stop
    cases after with
    | zero => cases h
    | succ k => rfl

/-- A node without an identity gets the generated one as a whole, or still has none. -/
theorem vacant_gentle (hlaw : codec.Lawful) {op : Op K D} (h : Gentle certsDir op)
    (hvacant : Vacant codec certsDir fs) :
    if op.founds codec then
      readCert codec (apply codec certsDir fs op) certsDir = some op.generated
    else Vacant codec certsDir (apply codec certsDir fs op) := by
  have hstored : (makeCaRoot codec certsDir fs false op.generated).2 =
      storeCert codec op.generated certsDir := by
    simp [makeCaRoot, hvacant.readCert_eq_none]
  have hkey : apply codec certsDir fs op (certsDir, privateKeyPath) = _ := apply_gentle h _
  have hcertificate : apply codec certsDir fs op (certsDir, certificateRootPath) = _ :=
    apply_gentle h _
  rw [hstored, executed_storeCert_key] at hkey
  rw [hstored, executed_storeCert_certificate] at hcertificate
  split
  · rename_i hfounds
    have hwhole := eq_of_beq hfounds
    rw [hwhole, Option.some_or] at hkey
    rw [leaves_of_past hwhole, Option.some_or] at hcertificate
    exact readCert_eq_some_iff.mpr ⟨hcertificate, _, hkey, hlaw.whole _⟩
  · rename_i hunfounded
    intro pk hpk
    rw [hkey] at hpk
    cases hleft : leaves (codec.serializeDer op.generated.keyPair) (past 1 op.stop) with
    | none =>
      rw [hleft, Option.none_or] at hpk
      exact hvacant pk hpk
    | some left =>
      rw [hleft, Option.some_or] at hpk
      -- a beginning of the key, and not all of it
      have hpre := isPrefix_of_leaves hleft
      have hne : left ≠ codec.serializeDer op.generated.keyPair := by
        rintro rfl
        exact hunfounded (beq_iff_eq.mpr hleft)
      have hshort : left.length < (codec.serializeDer op.generated.keyPair).length :=
        lt_of_le_of_ne hpre.length_le fun heq => hne (hpre.eq_of_length heq)
      rw [← Option.some.inj hpk, List.prefix_iff_eq_take.mp hpre]
      exact hlaw.cut _ _ hshort

/-- What a node reads behind a run is the first identity whose key was written to the end. -/
theorem readCert_run (hlaw : codec.Lawful) {ops : List (Op K D)}
    (hgentle : ∀ op ∈ ops, Gentle certsDir op) (hvacant : Vacant codec certsDir fs) :
    readCert codec (run codec certsDir fs ops) certsDir = founder codec ops := by
  induction ops generalizing fs with
  | nil => exact hvacant.readCert_eq_none
  | cons op ops ih =>
    obtain ⟨hop, hops⟩ := List.forall_mem_cons.mp hgentle
    have hstep := vacant_gentle hlaw hop hvacant
    have hrun : run codec certsDir fs (op :: ops) =
        run codec certsDir (apply codec certsDir fs op) ops := rfl
    rw [hrun, founder]
    split at hstep
    · rename_i hfounds
      rw [if_pos hfounds]
      exact readCert_gentle_run hops hstep
    · rename_i hunfounded
      rw [if_neg hunfounded]
      exact ih hops hstep

omit [DecidableEq D] in
/-- The founder of two runs is that of the first, or else that of the second. -/
theorem founder_append (first second : List (Op K D)) :
    founder codec (first ++ second) = (founder codec first).or (founder codec second) := by
  induction first with
  | nil => rfl
  | cons op ops ih =>
    rw [List.cons_append, founder, founder]
    split
    · rfl
    · exact ih

omit [DecidableEq D] in
/-- The founder is one of the identities that were generated. -/
theorem mem_of_founder {ops : List (Op K D)} (h : founder codec ops = some id) :
    id ∈ ops.map Op.generated := by
  induction ops with
  | nil => cases h
  | cons op ops ih =>
    rw [founder] at h
    split at h
    · cases h
      exact List.mem_cons_self
    · exact List.mem_cons_of_mem _ (ih h)

/-- A start that goes on does so with the first identity whose key was written to the end, which
may be the one that it has generated itself. -/
theorem served_eq_founder (hlaw : codec.Lawful) {ops : List (Op K D)} {op : Op K D}
    (hgentle : ∀ op ∈ ops, Gentle certsDir op) (hop : Gentle certsDir op)
    (hvacant : Vacant codec certsDir fs)
    (hserved : served codec certsDir (run codec certsDir fs ops) op = some id) :
    founder codec (ops ++ [op]) = some id := by
  have hread := readCert_run hlaw hgentle hvacant
  unfold served at hserved
  split at hserved
  · rename_i fails root
    cases hop
    have hfounds : (Op.serve false root none : Op K D).founds codec = true := by
      simp [Op.founds, Op.generated, Op.stop, past, leaves]
    rw [founder_append, ← hread, founder, if_pos hfounds]
    cases hstored : readCert codec (run codec certsDir fs ops) certsDir with
    | none => simpa [makeCaRoot, hstored, Op.generated] using hserved
    | some stored => simpa [makeCaRoot, hstored] using hserved
  · cases hserved

/-- Wherever starts and commands stop, all starts that go on do so with one identity, and its key
and certificate were generated together. -/
theorem served_agree (hlaw : codec.Lawful) {first second : List (Op K D)} {op op' : Op K D}
    {other : SoftwareKeyIdentity K}
    (hgentle : ∀ act ∈ first ++ op :: second ++ [op'], Gentle certsDir act)
    (hvacant : Vacant codec certsDir fs)
    (hserved : served codec certsDir (run codec certsDir fs first) op = some id)
    (hlater : served codec certsDir (run codec certsDir fs (first ++ op :: second)) op' =
      some other) :
    other = id ∧ id ∈ (first ++ [op]).map Op.generated := by
  have hfirst : ∀ act ∈ first, Gentle certsDir act := fun _ h => hgentle _ (by simp [h])
  have hboth : ∀ act ∈ first ++ op :: second, Gentle certsDir act := fun _ h =>
    hgentle _ (List.mem_append_left _ h)
  have hid := served_eq_founder hlaw hfirst (hgentle op (by simp)) hvacant hserved
  have hother := served_eq_founder hlaw hboth (hgentle op' (by simp)) hvacant hlater
  have hsplit : first ++ op :: second ++ [op'] = first ++ [op] ++ (second ++ [op']) := by simp
  rw [hsplit, founder_append, hid, Option.some_or] at hother
  exact ⟨(Option.some.inj hother).symm, mem_of_founder hid⟩

/-- The first start stops in the middle of its key. -/
theorem served_agree_stopped : ∃ id, served sampleCodec () (run sampleCodec () (fun _ => none)
    [.serve false ⟨1, [10]⟩ (some ⟨1, some 1⟩), .serve false ⟨2, [20]⟩ none])
    (.serve false ⟨3, [30]⟩ none) = some id ∧ id = ⟨2, [20]⟩ :=
  ⟨_, rfl, (@served_agree _ _ _ sampleCodec () (fun _ => none) ⟨2, [20]⟩ lawful_sampleCodec
    [.serve false ⟨1, [10]⟩ (some ⟨1, some 1⟩)] [] (.serve false ⟨2, [20]⟩ none)
    (.serve false ⟨3, [30]⟩ none) _ (by simp [Gentle]) (by simp [Vacant]) rfl rfl).1⟩

end Bqti.Certs
