import Bqti.Core.Framing
import Bqti.Core.Run
import Bqti.Dht.Auth.Manager

/-!
# The chain of trust of tokens

Honest nodes issue tokens that carry the certificate of their own authority and a PGP signature
over it. Adversarial nodes read the tokens they receive and build new ones from the parts. In
the symbolic model hashes do not collide, a signature under the key of an honest node exists
only if that node has made it, and a PGP signature only if an adversarial node has received it
or has owned it from the start.

Neither check of a token binds the issuer to the certificate, so an adversarial key can issue
under a certificate of somebody else as soon as its PGP signature is known.
-/

namespace Bqti.Dht.Trust

open Bqti.Core

/-- Who takes part: the honest nodes with their identities and the second leaf key they sign
pieces with, the keys of the adversarial ones, which keys a certificate certifies, and the
certificates with PGP signatures that adversarial nodes own. -/
structure Setting (H D P S R : Type*) where
  crypto : Crypto D P S
  identity : H → Identity D
  pieceKey : H → Bytes
  verifyReport : R → D → Bytes → Bool
  adversarial : Bytes → Prop
  certifies : (cert key : Bytes) → Prop
  owned : List (Bytes × Bytes)

/-- What has happened: the tokens that honest nodes have issued, those that adversarial nodes
have received, and all that honest nodes have signed, with the key. -/
structure World (D : Type*) where
  issued : List (Token D)
  seen : List (Token D)
  signed : List (Bytes × Bytes)

/-- A step: an honest node issues a token, signs a proof of work, a nonce in a handshake or a
piece of any torrent, or an adversarial node receives a token. -/
inductive Label (H D R : Type*)
  | issue (h : H) (pubKey : Bytes) (secret : PoW D R) (manifest : Option Bytes) (now : UInt64)
  | prove (h : H) (challange nonce : UInt32)
  | present (h : H) (token : Token D) (nonce : UInt32)
  | piece (h : H) (index : UInt32) (data : Bytes)
  | receive (j : Nat)

variable {H D P S R : Type*}

/-- Nothing has happened. -/
def World.new : World D := ⟨[], [], []⟩

/-- One step. -/
def step [DecidableEq D] (e : Setting H D P S R) (w : World D) : Label H D R → Option (World D)
  | .issue h pubKey secret manifest now =>
      match issueToken e.crypto (e.identity h) e.verifyReport manifest now pubKey secret with
      | some (.ok token) => some { w with
          issued := w.issued ++ [token]
          signed := w.signed ++
            [((e.identity h).pubKey, e.crypto.bytes (token.hash e.crypto))] }
      | _ => none
  | .prove h challange nonce =>
      let value := PoW.calculate e.crypto (e.identity h).pubKey challange nonce
      some { w with signed := w.signed ++ [((e.identity h).pubKey, e.crypto.bytes value)] }
  | .present h token nonce =>
      let tokenBytes := e.crypto.bytes (token.hash e.crypto) ++ be32 nonce
      some { w with signed := w.signed ++ [((e.identity h).pubKey, tokenBytes)] }
  | .piece h index data =>
      let hash := e.crypto.digest [le32 index, data]
      some { w with signed := w.signed ++ [(e.pieceKey h, e.crypto.bytes hash)] }
  | .receive j => (w.issued[j]?).map fun token => { w with seen := w.seen ++ [token] }

/-- An adversarial node has the signature over a certificate. -/
def KnownCert (e : Setting H D P S R) (w : World D) (cert sig : Bytes) : Prop :=
  (cert, sig) ∈ e.owned ∨ ∃ t ∈ w.seen, t.issuerCaCert = cert ∧ t.issuerCaCertSig = sig

/-- An adversarial node can build a token: its signature is under an adversarial key or was made
by an honest node, and its PGP signature is known if it is one at all. -/
structure Crafted (e : Setting H D P S R) (w : World D) (t : Token D) : Prop where
  signature : ∀ signature, t.signature = some signature →
    e.crypto.verify t.issuer (e.crypto.bytes (t.hash e.crypto)) signature = true →
    e.adversarial t.issuer ∨ (t.issuer, e.crypto.bytes (t.hash e.crypto)) ∈ w.signed
  pgp : ∀ sig pgpKey, e.crypto.parseSignature t.issuerCaCertSig = some sig →
    e.crypto.pgpVerify sig pgpKey t.issuerCaCert = true →
    KnownCert e w t.issuerCaCert t.issuerCaCertSig

/-- A certificate carries a signature of a swarm key that a node has loaded. -/
def Endorsed (e : Setting H D P S R) (pgpKeys : D → Option P) (cert sig : Bytes) : Prop :=
  sig ≠ [] ∧ ∃ swarmId pgpKey parsed, pgpKeys swarmId = some pgpKey ∧
    e.crypto.parseSignature sig = some parsed ∧ e.crypto.pgpVerify parsed pgpKey cert = true

/-- Every token that a node can meet and accepts was signed by a key that is certified by the
certificate in the token. -/
def ChainOfTrust (e : Setting H D P S R) (w : World D) (now : UInt64) (pgpKeys : D → Option P) :
    Prop :=
  ∀ t, t ∈ w.issued ∨ Crafted e w t → t.verify e.crypto now = true →
    t.verifyPgp e.crypto pgpKeys = true → e.certifies t.issuerCaCert t.issuer

/-- The symbolic assumptions: hashes do not collide, adversarial nodes can sign with their keys,
and the signing key of an honest node is a leaf of its own authority. -/
structure Symbolic (e : Setting H D P S R) : Prop where
  digest : Function.Injective e.crypto.digest
  bytes : PrefixFree e.crypto.bytes
  canSign : ∀ key, e.adversarial key → ∀ data, ∃ signature,
    e.crypto.verify key data signature = true
  leaf : ∀ h, e.certifies (e.identity h).caCert (e.identity h).pubKey

/-- Something that honest nodes sign. -/
inductive Purpose (e : Setting H D P S R) (w : World D) (key data : Bytes) : Prop
  | token (t : Token D) (issued : t ∈ w.issued) (hash : data = e.crypto.bytes (t.hash e.crypto))
  | work (challange nonce : UInt32)
      (value : data = e.crypto.bytes (PoW.calculate e.crypto key challange nonce))
  | ownership (t : Token D) (nonce : UInt32)
      (hash : data = e.crypto.bytes (t.hash e.crypto) ++ be32 nonce)
  | piece (index : UInt32) (content : Bytes)
      (hash : data = e.crypto.bytes (e.crypto.digest [le32 index, content]))

/-- Tokens of honest nodes name a certified issuer, and honest nodes sign for a purpose. -/
structure Sound (e : Setting H D P S R) (w : World D) : Prop where
  issued : ∀ t ∈ w.issued, t.issuerCaCertSig ≠ [] → e.certifies t.issuerCaCert t.issuer
  signed : ∀ entry ∈ w.signed, Purpose e w entry.1 entry.2

variable {e : Setting H D P S R} {w w' : World D}

/-- An honest token with a certificate has the one of its issuer's authority. -/
theorem issueToken_certified [DecidableEq D] (he : Symbolic e) {h : H} {pubKey : Bytes}
    {secret : PoW D R} {manifest : Option Bytes} {now : UInt64} {token : Token D}
    (hissue : issueToken e.crypto (e.identity h) e.verifyReport manifest now pubKey secret =
      some (.ok token)) (hsig : token.issuerCaCertSig ≠ []) :
    e.certifies token.issuerCaCert token.issuer := by
  obtain ⟨-, level, unsigned, hunsigned, hsign⟩ := issueToken_eq_ok hissue
  obtain ⟨signature, -, rfl⟩ := Token.sign_eq_ok hsign
  rcases hunsigned with ⟨rfl, -⟩ | ⟨swarmId, pgpSig, -, rfl⟩
  · exact absurd rfl hsig
  · exact he.leaf h

/-- What was signed for a purpose was, whatever else happens. -/
theorem Purpose.mono {key data : Bytes} (hp : Purpose e w key data)
    (hsub : w.issued ⊆ w'.issued) : Purpose e w' key data := by
  cases hp with
  | token t issued hash => exact .token t (hsub issued) hash
  | work challange nonce value => exact .work challange nonce value
  | ownership t nonce hash => exact .ownership t nonce hash
  | piece index content hash => exact .piece index content hash

/-- Every step keeps the world sound. -/
theorem Sound.step [DecidableEq D] (he : Symbolic e) {a : Label H D R} (hw : Sound e w)
    (h : Trust.step e w a = some w') : Sound e w' := by
  have hsign : ∀ key data, w'.signed = w.signed ++ [(key, data)] → w.issued ⊆ w'.issued →
      Purpose e w' key data → ∀ entry ∈ w'.signed, Purpose e w' entry.1 entry.2 := by
    intro key data hs hsub hnew entry hentry
    rw [hs] at hentry
    rcases List.mem_append.mp hentry with hold | hlast
    · exact (hw.signed entry hold).mono hsub
    · exact List.mem_singleton.mp hlast ▸ hnew
  cases a with
  | issue h' pubKey secret manifest now =>
    simp only [Trust.step] at h
    split at h
    · rename_i token hissue
      cases h
      have hnew : token ∈ w.issued ++ [token] :=
        List.mem_append_right _ (List.mem_singleton_self token)
      refine ⟨fun t ht hsig => ?_,
        hsign _ _ rfl (List.subset_append_left _ _) (.token token hnew rfl)⟩
      rcases List.mem_append.mp ht with hold | hlast
      · exact hw.issued t hold hsig
      · rw [List.mem_singleton.mp hlast] at hsig ⊢
        exact issueToken_certified he hissue hsig
    · exact absurd h (by simp)
  | prove h' challange nonce =>
    cases h
    exact ⟨hw.issued, hsign _ _ rfl (List.Subset.refl _) (.work challange nonce rfl)⟩
  | present h' token nonce =>
    cases h
    exact ⟨hw.issued, hsign _ _ rfl (List.Subset.refl _) (.ownership token nonce rfl)⟩
  | piece h' index data =>
    cases h
    exact ⟨hw.issued, hsign _ _ rfl (List.Subset.refl _) (.piece index data rfl)⟩
  | receive j =>
    simp only [Trust.step, Option.map_eq_some_iff] at h
    obtain ⟨token, -, rfl⟩ := h
    exact ⟨hw.issued, fun entry hentry => (hw.signed entry hentry).mono (List.Subset.refl _)⟩

/-- Only the issue of a token makes a signature over the hash of a token. -/
theorem Purpose.token_of_hash (he : Symbolic e) {key : Bytes} {t : Token D}
    (hp : Purpose e w key (e.crypto.bytes (t.hash e.crypto))) :
    ∃ s ∈ w.issued, s.issuer = t.issuer ∧ s.issuerCaCert = t.issuerCaCert ∧
      s.issuerCaCertSig = t.issuerCaCertSig := by
  cases hp with
  | token s issued hash =>
    have hinput := he.digest (he.bytes.injective hash)
    simp only [Token.hashInput, List.cons.injEq] at hinput
    obtain ⟨-, -, -, -, -, -, hcert, hsig, hissuer, -⟩ := hinput
    exact ⟨s, issued, hissuer.symm, hcert.symm, hsig.symm⟩
  | work challange nonce value =>
    have hinput := he.digest (he.bytes.injective value)
    simp [Token.hashInput] at hinput
  | piece index content hash =>
    have hinput := he.digest (he.bytes.injective hash)
    simp [Token.hashInput] at hinput
  | ownership s nonce hash =>
    exact absurd hash.symm (he.bytes.append_ne (by simp [be32]))

/-- The token that a key issues under a certificate of somebody else. -/
def recombined (swarmId : D) (issuer cert sig signature : Bytes) : Token D where
  swarmId := swarmId
  peer := issuer
  pow := swarmId
  issuedAt := 0
  expAt := 0xFFFFFFFFFFFFFFFF
  issuer := issuer
  issuerCaCert := cert
  issuerCaCertSig := sig
  trustLevel := .attested
  signature := some signature

/-- The latest expiry date is never passed. -/
theorem recombined_not_expired (swarmId : D) (issuer cert sig signature : Bytes) (now : UInt64) :
    (recombined swarmId issuer cert sig signature).isExpired now = false := by
  have hnow : ¬ now > 0xFFFFFFFFFFFFFFFF := by
    have hlt := now.toNat_lt
    rw [gt_iff_lt, UInt64.lt_iff_toNat_lt]
    simp only [UInt64.reduceToNat]
    omega
  simp [Token.isExpired, recombined, hnow]

/-- An adversarial key can issue an acceptable token under every known certificate. -/
theorem exists_recombined (he : Symbolic e) {cert sig key : Bytes} {pgpKeys : D → Option P}
    (hknown : KnownCert e w cert sig) (hendorsed : Endorsed e pgpKeys cert sig)
    (hkey : e.adversarial key) (now : UInt64) :
    ∃ t, Crafted e w t ∧ t.verify e.crypto now = true ∧ t.verifyPgp e.crypto pgpKeys = true ∧
      t.issuerCaCert = cert ∧ t.issuer = key := by
  obtain ⟨hsig, swarmId, pgpKey, parsed, hload, hparse, hpgp⟩ := hendorsed
  -- the hash does not cover the signature, so any token with these fields gives it
  obtain ⟨signature, hvalid⟩ := he.canSign key hkey
    (e.crypto.bytes ((recombined swarmId key cert sig []).hash e.crypto))
  refine ⟨recombined swarmId key cert sig signature, ⟨?_, ?_⟩, ?_, ?_, rfl, rfl⟩
  · exact fun _ _ _ => Or.inl hkey
  · exact fun _ _ _ _ => hknown
  · exact Token.verify_eq_true_iff.mpr
      ⟨recombined_not_expired swarmId key cert sig signature now, signature, rfl, hvalid⟩
  · exact Token.verifyPgp_eq_true_iff.mpr ⟨hsig, pgpKey, parsed, hload, hparse, hpgp⟩

/-- In every reachable world, every token that passes both checks is signed by a key certified
by the certificate in it, exactly when each certificate whose swarm signature adversarial nodes
know certifies all adversarial keys. -/
theorem chain_of_trust_iff {H D P S R : Type*} [DecidableEq D] (e : Setting H D P S R)
    (he : Symbolic e) (labels : List (Label H D R)) (w : World D)
    (h : run (step e) .new labels = some w) (now : UInt64) (pgpKeys : D → Option P) :
    ChainOfTrust e w now pgpKeys ↔
      ∀ cert sig, KnownCert e w cert sig → Endorsed e pgpKeys cert sig →
        ∀ key, e.adversarial key → e.certifies cert key := by
  have hsound : Sound e w := by
    refine run_invariant (fun v a v' hv hs => Sound.step he hv hs) ?_ h
    exact ⟨fun t ht => by simp [World.new] at ht, fun entry hs => by simp [World.new] at hs⟩
  constructor
  · intro hchain cert sig hknown hendorsed key hkey
    obtain ⟨t, hcrafted, hverify, hpgp, rfl, rfl⟩ :=
      exists_recombined he hknown hendorsed hkey now
    exact hchain t (Or.inr hcrafted) hverify hpgp
  · intro hcert t ht hverify hpgp
    obtain ⟨hsig, pgpKey, parsed, hload, hparse, hvalid⟩ := Token.verifyPgp_eq_true_iff.mp hpgp
    rcases ht with hissued | hcrafted
    · exact hsound.issued t hissued hsig
    · obtain ⟨-, signature, hsome, hsignature⟩ := Token.verify_eq_true_iff.mp hverify
      rcases hcrafted.signature signature hsome hsignature with hadv | hsigned
      · have hknown := hcrafted.pgp parsed pgpKey hparse hvalid
        exact hcert _ _ hknown ⟨hsig, t.swarmId, pgpKey, parsed, hload, hparse, hvalid⟩ _ hadv
      · obtain ⟨s, hs, hissuer, hsc, hss⟩ := (hsound.signed _ hsigned).token_of_hash he
        rw [← hissuer, ← hsc]
        exact hsound.issued s hs (by rwa [hss])

/-! ## One bootstrap node and one adversarial key -/

/-- Free hashes and signatures: a digest is the list of what was hashed, and a signature names
its key and what was signed. -/
def freeCrypto : Crypto (List Bytes) Bytes Bytes where
  digest := id
  bytes chunks := [0, 0, 0] ++ frame chunks
  zeros := [List.replicate 32 0]
  verify key data signature := signature == frame [key, data]
  parseSignature := some
  pgpVerify sig pgpKey cert := sig == frame [pgpKey, cert]

/-- The bootstrap node: its signing key is `[1]`, its authority has the certificate `[10]`, and
the swarm key is `[99]`. -/
def bootstrapIdentity : Identity (List Bytes) where
  pubKey := [1]
  signer data := some (frame [[1], data])
  caCert := [10]
  pgpDetails := some ([[99]], some (frame [[99], [10]]))

/-- The adversarial key is `[2]`; adversarial nodes own the given certificates, and those
certify their key. -/
def sampleSetting (owned : List (Bytes × Bytes)) :
    Setting Unit (List Bytes) Bytes Bytes Unit where
  crypto := freeCrypto
  identity _ := bootstrapIdentity
  pieceKey _ := [3]
  verifyReport _ _ _ := false
  adversarial key := key = [2]
  certifies cert key := cert = [10] ∧ key = [1] ∨ cert ∈ owned.map Prod.fst ∧ key = [2]
  owned := owned

/-- Nodes have loaded the swarm key. -/
def samplePgpKeys : List Bytes → Option Bytes := fun id => if id = [[99]] then some [99] else none

/-- The proof of work of a peer. -/
def samplePow (pubKey : Bytes) : PoW (List Bytes) Unit where
  value := PoW.calculate freeCrypto pubKey 7 0
  challange := 7
  nonce := 0
  signature := some (frame [pubKey, freeCrypto.bytes (PoW.calculate freeCrypto pubKey 7 0)])
  attestation := none
  difficulty := difficulty

/-- The free hashes and signatures meet the symbolic assumptions. -/
theorem sampleSetting_symbolic (owned : List (Bytes × Bytes)) :
    Symbolic (sampleSetting owned) where
  digest := Function.injective_id
  bytes := prefixFree_frame.append_left [0, 0, 0]
  canSign key _ data := ⟨frame [key, data], by simp [sampleSetting, freeCrypto]⟩
  leaf _ := Or.inl ⟨rfl, rfl⟩

/-- While adversarial nodes know only the certificate that they own, the chain of trust holds. -/
theorem chain_of_trust_iff_own_certificate :
    ∃ w, run (step (sampleSetting [([20], frame [[99], [20]])])) .new
        [.issue () [5] (samplePow [5]) none 1700000000] = some w ∧ w.issued.length = 1 ∧
      ChainOfTrust (sampleSetting [([20], frame [[99], [20]])]) w 1700000000 samplePgpKeys := by
  have hrun : (run (step (sampleSetting [([20], frame [[99], [20]])])) .new
      [.issue () [5] (samplePow [5]) none 1700000000]).map
        (fun w => (w.issued.length, w.seen)) = some (1, []) := by decide +kernel
  obtain ⟨w, hw, he⟩ := Option.map_eq_some_iff.mp hrun
  injection he with hissued hseen
  refine ⟨w, hw, hissued, (chain_of_trust_iff _ (sampleSetting_symbolic _) _ w hw _ _).mpr ?_⟩
  rintro cert sig (howned | ⟨t, ht, -⟩) - key hkey
  · exact Or.inr ⟨List.mem_map_of_mem howned, hkey⟩
  · rw [hseen] at ht
    exact absurd ht List.not_mem_nil

/-- The token that the key `[2]` issues under the certificate of the bootstrap node. -/
def forgedToken : Token (List Bytes) :=
  recombined [[99]] [2] [10] (frame [[99], [10]])
    (frame [[2], freeCrypto.bytes
      ((recombined [[99]] [2] [10] (frame [[99], [10]]) []).hash freeCrypto)])

/-- Once an adversarial node has received a token of the bootstrap node, it issues a token
under that node's certificate with its own key, and both checks accept it. -/
theorem recombined_token_accepted :
    ∃ w, run (step (sampleSetting [])) .new
        [.issue () [2] (samplePow [2]) none 1700000000, .receive 0] = some w ∧
      Crafted (sampleSetting []) w forgedToken ∧
      forgedToken.verify freeCrypto 1700000000 = true ∧
      forgedToken.verifyPgp freeCrypto samplePgpKeys = true ∧
      ¬ (sampleSetting []).certifies forgedToken.issuerCaCert forgedToken.issuer ∧
      ¬ ChainOfTrust (sampleSetting []) w 1700000000 samplePgpKeys := by
  have hrun : (run (step (sampleSetting [])) .new
      [.issue () [2] (samplePow [2]) none 1700000000, .receive 0]).map
        (fun w => w.seen.map fun t => (t.issuerCaCert, t.issuerCaCertSig)) =
      some [([10], frame [[99], [10]])] := by decide +kernel
  obtain ⟨w, hw, hseen⟩ := Option.map_eq_some_iff.mp hrun
  have hmem : ([10], frame [[99], [10]]) ∈
      w.seen.map fun t => (t.issuerCaCert, t.issuerCaCertSig) := by
    rw [hseen]
    exact List.mem_singleton_self _
  obtain ⟨s, hs, hfields⟩ := List.mem_map.mp hmem
  injection hfields with hcert hsig
  have hcrafted : Crafted (sampleSetting []) w forgedToken :=
    ⟨fun _ _ _ => Or.inl rfl, fun _ _ _ _ => Or.inr ⟨s, hs, hcert, hsig⟩⟩
  have hverify : forgedToken.verify freeCrypto 1700000000 = true := by decide +kernel
  have hpgp : forgedToken.verifyPgp freeCrypto samplePgpKeys = true := by decide +kernel
  have hbad : ¬ (sampleSetting []).certifies forgedToken.issuerCaCert forgedToken.issuer := by
    rintro (⟨-, hkey⟩ | ⟨hcert', -⟩)
    · exact absurd hkey (by decide)
    · exact absurd hcert' List.not_mem_nil
  exact ⟨w, hw, hcrafted, hverify, hpgp, hbad,
    fun hchain => hbad (hchain forgedToken (Or.inr hcrafted) hverify hpgp)⟩

end Bqti.Dht.Trust
