import Spiffile.Custody
import Spiffile.Deployment

/-!
# Who can have sent an accepted token

The services of a root as a protocol. Provisioning calls run and stop anywhere,
services load their files, mint tokens and send them to each other, and some
services sign what they like with the keys they find in their own directory.
Signatures are taken to be unforgeable. Then a token that any verifier accepts as
coming from a service was signed by that service.
-/

namespace Spiffile

open FileTree

/-! ### The world -/

/-- What a key was used for. -/
inductive Use where
  | minted (minter : Impl) (own : SpiffeId) (time : ℚ) (audience : String) (ttl : ℤ) (token : String)
  | signed (input : String)

/-- The text under the signature. -/
def Use.Input (input : String) : Use → Prop
  | minted _ _ _ _ _ token => ∃ h p s, segments token = [h, p, s] ∧ input = signingInput h p
  | signed text => input = text

/-- Services that are not compromised mint only. -/
def Use.Allowed (compromised : Prop) : Use → Prop
  | minted _ _ _ audience _ _ => ∃ receiver, Go.parseSpiffeID audience = .ok receiver
  | signed _ => compromised

/-- A service has used a key. -/
structure Signing where
  name : String
  key : Point
  use : Use

structure World where
  disk : Disk
  loaded : List (String × Identity)
  /-- Keys that compromised services have copied. -/
  copied : List (String × Point)
  signings : List Signing

/-- The world with a disk on which nothing was loaded yet. -/
def World.start (s : Disk) : World := ⟨s, [], [], []⟩

section

variable (rt : Runtime) (libs : Libs) (supply : ℕ → Point) (root : PathName)
  (other : Content → String) (compromised : String → Prop)

inductive World.Step : World → World → Prop
  /-- A provisioning call passes through a state, or stops there. -/
  | provision {w : World} {t : Disk} (impl : Impl) (call : Call)
      (h : impl.Visits rt supply root call w.disk t) : Step w { w with disk := t }
  /-- A service starts. -/
  | load {w : World} (impl : Impl) (name : String) (self : Identity) (hname : PlainPath (splitSlash name))
      (h : impl.loadIdentity supply other w.disk root name = some self) :
      Step w { w with loaded := (name, self) :: w.loaded }
  /-- A service mints a token with the key that its file holds. -/
  | mint {w : World} (minter : Impl) (name : String) (self : Identity) (key : Point) (time : ℚ)
      (audience : String) (ttl : ℤ) (token : String) (hself : (name, self) ∈ w.loaded)
      (hkey : minter.privateKey supply w.disk self = some key)
      (h : minter.identityToken supply w.disk libs self time audience ttl = some token) :
      Step w { w with signings := ⟨name, key, .minted minter self.id time audience ttl token⟩ :: w.signings }
  /-- A compromised service copies the key in its file. -/
  | copy {w : World} (name : String) (key : Point) (hname : PlainPath (splitSlash name))
      (hbad : compromised name) (h : w.disk.tree.read (keyPath root name) = .ok (.key key)) :
      Step w { w with copied := (name, key) :: w.copied }
  /-- It signs any text with a key it has copied. -/
  | sign {w : World} (name : String) (key : Point) (input : String) (h : (name, key) ∈ w.copied) :
      Step w { w with signings := ⟨name, key, .signed input⟩ :: w.signings }

/-- Whatever order the steps come in. -/
def World.Run : World → World → Prop :=
  Relation.ReflTransGen (World.Step rt libs supply root other compromised)

/-- A signature that some verifier accepts under a generated key was made with
that key. -/
def World.Unforged (w : World) : Prop :=
  ∀ i < w.disk.generated, ∀ (verifier : Impl) (input sig : String),
    verifier.VerifiesUnder libs (jwkAt rt.sha256 supply i) input sig →
    ∃ e ∈ w.signings, e.key = supply i ∧ e.use.Input input

end

/-! ### Reading a service's files -/

section

variable {supply : ℕ → Point} {s : Disk} {self : Identity}

theorem returns_of_answer {ε α : Type} {p : Prog Cmd Ans ε α} {a : α}
    (h : (p.run (Disk.semantics supply) s).1.toOption = some a) :
    ∃ t, p.Returns (Disk.semantics supply) s a t :=
  ⟨_, Prod.ext (toOption_eq_some h) rfl⟩

theorem read_returns {ε α : Type} {p : PathName} {raised : Errno → ε} {f : Content → Prog Cmd Ans ε α}
    {a : α} {t : Disk}
    (h : (read p >>= fun answer => check raised answer >>= f).Returns (Disk.semantics supply) s a t) :
    ∃ c, s.tree.read p = .ok c ∧ (f c).Returns (Disk.semantics supply) s a t := by
  obtain ⟨answer, u, hread, h⟩ := Prog.returns_bind.mp h
  obtain ⟨hanswer, hu⟩ := Prog.returns_exec.mp hread
  obtain ⟨c, v, hcheck, h⟩ := Prog.returns_bind.mp h
  obtain ⟨hc, hv⟩ := Prog.returns_lift.mp hcheck
  have hs : s = v := (show s = u from hu).trans hv
  exact ⟨c, (show s.tree.read p = answer from hanswer).trans (mapError_eq_ok.mp hc), hs ▸ h⟩

/-- The key an identity signs with lies in its file. -/
theorem Impl.read_of_privateKey {key : Point} {impl : Impl}
    (h : impl.privateKey supply s self = some key) : s.tree.read self.keyFile = .ok (.key key) := by
  cases impl with
  | python =>
    obtain ⟨t, h⟩ := returns_of_answer h
    obtain ⟨c, hc, h⟩ := read_returns h
    cases c with
    | key p => rw [hc, (Prog.returns_pure.mp h).1]
    | _ => exact (Prog.not_returns_throw h).elim
  | typescript =>
    obtain ⟨t, h⟩ := returns_of_answer h
    obtain ⟨c, hc, h⟩ := read_returns h
    cases c with
    | key p => rw [hc, (Prog.returns_pure.mp h).1]
    | _ => exact (Prog.not_returns_throw h).elim
  | go =>
    obtain ⟨t, h⟩ := returns_of_answer h
    obtain ⟨c, hc, h⟩ := read_returns h
    cases c with
    | key p => rw [hc, (Prog.returns_pure.mp h).1]
    | _ => exact (Prog.not_returns_throw h).elim

/-- Only for an ID. -/
theorem Impl.parse_of_identityToken {libs : Libs} {time : ℚ} {audience token : String} {ttl : ℤ}
    {minter : Impl} (h : minter.identityToken supply s libs self time audience ttl = some token) :
    ∃ receiver, Go.parseSpiffeID audience = .ok receiver := by
  cases minter with
  | python =>
    obtain ⟨t, h⟩ := returns_of_answer h
    obtain ⟨receiver, u, hparse, -⟩ := Prog.returns_bind.mp h
    exact ⟨receiver, (py_parse_eq audience).symm.trans (mapError_eq_ok.mp (Prog.returns_lift.mp hparse).1)⟩
  | typescript =>
    obtain ⟨t, h⟩ := returns_of_answer h
    obtain ⟨receiver, u, hparse, -⟩ := Prog.returns_bind.mp h
    exact ⟨receiver, (ts_parse_eq audience).symm.trans (mapError_eq_ok.mp (Prog.returns_lift.mp hparse).1)⟩
  | go =>
    obtain ⟨t, h⟩ := returns_of_answer h
    obtain ⟨receiver, u, hparse, -⟩ := Prog.returns_bind.mp h
    exact ⟨receiver, mapError_eq_ok.mp (Prog.returns_lift.mp hparse).1⟩

/-- A service is loaded from its own directory, and trusts the bundle of the root. -/
theorem Impl.files_of_loadIdentity (rt : Runtime) {root : PathName} (hroot : PlainPath root)
    (hslash : NoSlash root) {name : String} (hname : PlainPath (splitSlash name))
    {other : Content → String} {impl : Impl}
    (h : impl.loadIdentity supply other s root name = some self) :
    self.keyFile = keyPath root name ∧ self.bundleFile = bundlePath root := by
  cases impl with
  | python =>
    obtain ⟨t, h⟩ := returns_of_answer h
    rw [Py.loadIdentity, py_serviceFiles rt hroot hslash hname] at h
    obtain ⟨c, -, h⟩ := read_returns h
    obtain ⟨id, u, -, h⟩ := Prog.returns_bind.mp h
    rw [← (Prog.returns_pure.mp h).1]
    exact ⟨rfl, rfl⟩
  | typescript =>
    obtain ⟨t, h⟩ := returns_of_answer h
    rw [Ts.loadIdentity, ts_serviceFiles rt hroot hslash hname] at h
    obtain ⟨c, -, h⟩ := read_returns h
    obtain ⟨id, u, -, h⟩ := Prog.returns_bind.mp h
    rw [← (Prog.returns_pure.mp h).1]
    exact ⟨rfl, rfl⟩
  | go =>
    obtain ⟨t, h⟩ := returns_of_answer h
    rw [Go.loadIdentity, go_serviceFiles rt hroot hslash hname] at h
    obtain ⟨c, -, h⟩ := read_returns h
    obtain ⟨id, u, -, h⟩ := Prog.returns_bind.mp h
    obtain ⟨key, v, -, h⟩ := Prog.returns_bind.mp h
    rw [← (Prog.returns_pure.mp h).1]
    exact ⟨rfl, rfl⟩

end

/-! ### Each service has its own keys -/

section

variable {rt : Runtime} {libs : Libs} {supply : ℕ → Point} {root : PathName}
  {other : Content → String} {compromised : String → Prop}

/-- A service has the key, by the generated keys and their owners. -/
def Owned (supply : ℕ → Point) (owner : ℕ → String) (n : ℕ) (name : String) (key : Point) : Prop :=
  ∃ i < n, key = supply i ∧ owner i = name

/-- Keys are on the disk, copied and used by nobody but their owners. -/
structure Attested (rt : Runtime) (supply : ℕ → Point) (root : PathName)
    (compromised : String → Prop) (owner : ℕ → String) (first : Disk) (w : World) : Prop where
  custody : Custody rt.sha256 supply root owner first w.disk
  loaded : ∀ name self, (name, self) ∈ w.loaded → PlainPath (splitSlash name) ∧
    self.keyFile = keyPath root name ∧ self.bundleFile = bundlePath root
  copied : ∀ name key, (name, key) ∈ w.copied →
    compromised name ∧ Owned supply owner w.disk.generated name key
  signings : ∀ e ∈ w.signings, e.use.Allowed (compromised e.name) ∧
    Owned supply owner w.disk.generated e.name e.key

theorem Owned.later {owner owner' : ℕ → String} {n m : ℕ} {name : String} {key : Point}
    (h : Owned supply owner n name key) (hnm : n ≤ m) (heq : ∀ i < n, owner' i = owner i) :
    Owned supply owner' m name key := by
  obtain ⟨i, hi, hkey, hname⟩ := h
  exact ⟨i, hi.trans_le hnm, hkey, (heq i hi).trans hname⟩

theorem attested_start {s : Disk} (hfresh : s.tree.get (bundlePath root) = none) :
    Attested rt supply root compromised (fun _ => "") s (World.start s) where
  custody := Custody.fresh _ hfresh
  loaded _ _ h := absurd h List.not_mem_nil
  copied _ _ h := absurd h List.not_mem_nil
  signings _ h := absurd h List.not_mem_nil

variable {owner : ℕ → String} {first : Disk}
  (hkeys : ∀ name key, first.tree.get (keyPath root name) ≠ some (.file (.key key)))
  (hroot : PlainPath root)

include hkeys hroot

/-- The key in a service's file is its own. -/
theorem Custody.owned {s : Disk} (h : Custody rt.sha256 supply root owner first s) {name : String}
    (hname : PlainPath (splitSlash name)) {key : Point}
    (hread : s.tree.read (keyPath root name) = .ok (.key key)) :
    Owned supply owner s.generated name key := by
  have hget := (Volume.read_plain_eq_ok (plainPath_keyPath hroot hname) _ _).mp hread
  obtain ⟨i, hi, hkey, hpath⟩ := (h.held _ key hget).resolve_left (hkeys name key)
  exact ⟨i, hi, hkey, (keyPath_injective root hpath).symm⟩

theorem Attested.step (hslash : NoSlash root) {w w' : World}
    (h : Attested rt supply root compromised owner first w)
    (hstep : World.Step rt libs supply root other compromised w w') :
    ∃ owner', Attested rt supply root compromised owner' first w' := by
  cases hstep with
  | provision impl call hv =>
    obtain ⟨hcustody, hle⟩ := h.custody.call hroot hv
    have heq : ∀ i < w.disk.generated, assign owner w.disk.generated call i = owner i :=
      fun i hi => assign_of_lt owner hi call
    exact ⟨_, hcustody, h.loaded,
      fun name key hk => ⟨(h.copied name key hk).1, (h.copied name key hk).2.later hle heq⟩,
      fun e he => ⟨(h.signings e he).1, (h.signings e he).2.later hle heq⟩⟩
  | load impl name self hname hload =>
    refine ⟨owner, h.custody, fun n i hmem => ?_, h.copied, h.signings⟩
    rcases List.mem_cons.mp hmem with heq | hmem
    · cases heq
      exact ⟨hname, impl.files_of_loadIdentity rt hroot hslash hname hload⟩
    · exact h.loaded n i hmem
  | mint minter name self key time audience ttl token hself hkey htoken =>
    refine ⟨owner, h.custody, h.loaded, h.copied, fun e he => ?_⟩
    rcases List.mem_cons.mp he with rfl | he
    · obtain ⟨hname, hfile, -⟩ := h.loaded name self hself
      have hread := minter.read_of_privateKey hkey
      rw [hfile] at hread
      exact ⟨minter.parse_of_identityToken htoken, h.custody.owned hkeys hroot hname hread⟩
    · exact h.signings e he
  | copy name key hname hbad hread =>
    refine ⟨owner, h.custody, h.loaded, fun n k hmem => ?_, h.signings⟩
    rcases List.mem_cons.mp hmem with heq | hmem
    · cases heq
      exact ⟨hbad, h.custody.owned hkeys hroot hname hread⟩
    · exact h.copied n k hmem
  | sign name key input hcopied =>
    refine ⟨owner, h.custody, h.loaded, h.copied, fun e he => ?_⟩
    rcases List.mem_cons.mp he with rfl | he
    · exact h.copied name key hcopied
    · exact h.signings e he

theorem Attested.run (hslash : NoSlash root) {w w' : World}
    (h : Attested rt supply root compromised owner first w)
    (hrun : World.Run rt libs supply root other compromised w w') :
    ∃ owner', Attested rt supply root compromised owner' first w' := by
  induction hrun with
  | refl => exact ⟨owner, h⟩
  | tail _ hlast ih =>
    obtain ⟨owner', h'⟩ := ih
    exact h'.step hkeys hroot hslash hlast

end

/-! ### What acceptance says of the token -/

namespace Impl

/-- The audience that is asked for. -/
def expectedAudience (own : SpiffeId) (audience : Option String) : Impl → String
  | python => Py.expectedAudience own audience
  | typescript => Ts.expectedAudience own audience
  | go => Go.expectedAudience own (audience.getD "")

def effectiveLeeway (leeway : ℚ) : Impl → ℚ
  | go => Go.effectiveLeeway leeway
  | _ => leeway

def numericDate (libs : Libs) : Impl → Json → Option ℚ
  | python => libs.py.numericDate
  | typescript => Json.num?
  | go => libs.go.numericDate

/-- A document binds the list to the ID. -/
def BindsList : Impl → Json → String → List Json → Prop
  | go => Go.Binds
  | _ => Binds

theorem justified {libs : Libs} (hpy : libs.py.Documented) (hgo : libs.go.Documented)
    {own : SpiffeId} {file : BundleFile} {now leeway : ℚ} {token : String}
    {audience : Option String} {caller : Caller} {verifier : Impl}
    (h : verifier.verifyFor libs own file now token audience leeway = some caller) :
    Justified (verifier.segment libs) (verifier.numericDate libs) (file.binds verifier.BindsList)
      (fun jwk input sig => verifier.VerifiesUnder libs jwk input sig) token
      (verifier.expectedAudience own audience) now (verifier.effectiveLeeway leeway) caller := by
  cases verifier with
  | python => exact Py.justified_of_verify libs.py hpy _ _ _ _ _ _ _ (toOption_eq_some h)
  | typescript => exact Ts.justified_of_verify libs.node _ _ _ _ _ _ _ (toOption_eq_some h)
  | go => exact Go.justified_of_verify libs.go hgo _ _ _ _ _ _ _ (toOption_eq_some h)

theorem binds_document {td id : String} {ids : Identities} {jwks : List Json} {reader : Impl}
    (h : reader.BindsList (document (.str td) ids) id jwks) : ids.lookup id = some jwks := by
  cases reader with
  | python => exact Spiffile.binds_document h
  | typescript => exact Spiffile.binds_document h
  | go => exact go_binds_document h

end Impl

/-! ### Accepted tokens -/

theorem segments_signingInput {h p : String} (hh : '.' ∉ h.toList) (hp : '.' ∉ p.toList) :
    segments (signingInput h p) = [h, p] := by
  have hlist : (signingInput h p).toList = h.toList ++ '.' :: p.toList := by
    simp [signingInput, String.toList_append]
  rw [segments, hlist, List.splitOn_append_cons_self, List.splitOn_eq_singleton hh,
    List.splitOn_eq_singleton hp]
  simp

theorem dotless_of_mem_segments {token part : String} (h : part ∈ segments token) :
    '.' ∉ part.toList := by
  obtain ⟨cs, hcs, rfl⟩ := List.mem_map.mp h
  rw [String.toList_ofList]
  exact not_mem_of_mem_splitOn hcs

/-- The text under a signature tells the two segments. -/
theorem signingInput_inj {token token' h p s h' p' s' : String} (hseg : segments token = [h, p, s])
    (hseg' : segments token' = [h', p', s']) (heq : signingInput h p = signingInput h' p') :
    h = h' ∧ p = p' := by
  have hdot : ∀ part ∈ [h, p, s], '.' ∉ part.toList :=
    fun part hp => dotless_of_mem_segments (hseg ▸ hp)
  have hdot' : ∀ part ∈ [h', p', s'], '.' ∉ part.toList :=
    fun part hp => dotless_of_mem_segments (hseg' ▸ hp)
  have hsegs := congrArg segments heq
  rw [segments_signingInput (hdot h (by simp)) (hdot p (by simp)),
    segments_signingInput (hdot' h' (by simp)) (hdot' p' (by simp))] at hsegs
  exact ⟨(List.cons.inj hsegs).1, (List.cons.inj (List.cons.inj hsegs).2).1⟩

theorem ok_of_bundleFileWith {atDir : BundleFile} (hdir : ∀ d, atDir ≠ .doc d)
    {r : Except Errno Content} {d : Json} (h : bundleFileWith atDir r = .doc d) : r = .ok (.json d) := by
  unfold bundleFileWith at h
  split at h
  · cases h
    rfl
  · cases h
  · exact absurd h (hdir d)
  · cases h

section

variable {libs : Libs} (hpy : libs.py.Documented) (hgo : libs.go.Documented)
  {supply : ℕ → Point} {s : Disk} {peer : Identity} {now leeway : ℚ} {token : String}
  {audience : Option String} {caller : Caller} {verifier : Impl}

include hpy hgo

/-- Only a document is verified against. -/
theorem Impl.doc_of_identityVerify (hplain : PlainPath peer.bundleFile)
    (h : verifier.identityVerify supply s libs peer now token audience leeway = some caller) :
    ∃ d, s.tree.get peer.bundleFile = some (.file (.json d)) ∧
      verifier.verifyFor libs peer.id (.doc d) now token audience leeway = some caller := by
  have hdoc : ∃ atDir, (∀ d, atDir ≠ BundleFile.doc d) ∧ verifier.verifyFor libs peer.id
      (bundleFileWith atDir (s.tree.read peer.bundleFile)) now token audience leeway =
        some caller := by
    cases verifier with
    | python => exact ⟨.notJson, fun d => by simp, h⟩
    | typescript => exact ⟨.missing, fun d => by simp, h⟩
    | go => exact ⟨.missing, fun d => by simp, h⟩
  obtain ⟨atDir, hdir, hfor⟩ := hdoc
  obtain ⟨_, _, _, _, _, _, _, _, _, _, _, _, _, _, _, _, _, ⟨d, hd, _⟩, _⟩ :=
    Impl.justified hpy hgo hfor
  exact ⟨d, (Volume.read_plain_eq_ok hplain _ _).mp (ok_of_bundleFileWith hdir hd), hd ▸ hfor⟩

/-- Who a token is accepted from has signed it, with a key of its own. -/
theorem Attested.signing {rt : Runtime} {root : PathName} {compromised : String → Prop}
    {owner : ℕ → String} {first : Disk} {w : World}
    (h : Attested rt supply root compromised owner first w) (hroot : PlainPath root)
    (hunforged : w.Unforged rt libs supply)
    (hkeys : Set.InjOn supply (Set.Iio w.disk.generated)) (hbundle : peer.bundleFile = bundlePath root)
    (haccept : verifier.identityVerify supply w.disk libs peer now token audience leeway = some caller) :
    ∃ td name hd p sig claims v exp, trustDomainAt root w.disk = some td ∧
      caller.id.toString = serviceId td name ∧
      segments token = [hd, p, sig] ∧ verifier.segment libs p = some (.obj claims) ∧
      caller.claims = .obj claims ∧ Members.get? claims "sub" = some (.str caller.id.toString) ∧
      Members.get? claims "aud" = some (.str (verifier.expectedAudience peer.id audience)) ∧
      Members.get? claims "exp" = some v ∧ verifier.numericDate libs v = some exp ∧
      now ≤ exp + verifier.effectiveLeeway leeway ∧
      ∃ e ∈ w.signings, e.name = name ∧ e.use.Allowed (compromised name) ∧
        e.use.Input (signingInput hd p) := by
  have hplain : PlainPath peer.bundleFile := hbundle ▸ plainPath_bundlePath hroot
  obtain ⟨d, hd, hfor⟩ := Impl.doc_of_identityVerify hpy hgo hplain haccept
  rw [hbundle] at hd
  obtain ⟨td, ids, rfl, hlists⟩ := h.custody.listed d hd
  obtain ⟨ht, p, sig, header, claims, sub, hseg, -, -, hclaims, hcaller, hsub, -, rfl, haud,
    ⟨v, exp, hv, hexp, hnow⟩, jwks, ⟨d', hd', hbinds⟩, jwk, hjwk, hverifies⟩ :=
    Impl.justified hpy hgo hfor
  cases hd'
  obtain ⟨is, rfl, his⟩ := hlists _ _ (Impl.binds_document hbinds)
  obtain ⟨i, hi, rfl⟩ := List.mem_map.mp hjwk
  obtain ⟨hlt, hid⟩ := his i hi
  obtain ⟨e, he, hekey, hinput⟩ := hunforged i hlt verifier _ _ hverifies
  obtain ⟨hallowed, j, hj, hkey, hname⟩ := h.signings e he
  have hji : j = i := hkeys (Set.mem_Iio.mpr hj) (Set.mem_Iio.mpr hlt) (hkey.symm.trans hekey)
  subst hji
  exact ⟨td, e.name, ht, p, sig, claims, v, exp, trustDomainAt_document hroot hd, hname ▸ hid, hseg,
    hclaims, hcaller, hsub, haud, hv, hexp, hnow, e, he, rfl, hallowed, hinput⟩

end

/-- The verifier reads the claims of minted tokens as they were written. -/
def World.Readable (libs : Libs) (verifier : Impl) (w : World) : Prop :=
  ∀ e ∈ w.signings, ∀ minter own time audience ttl token,
    e.use = .minted minter own time audience ttl token →
    ∀ receiver hd p sig, Go.parseSpiffeID audience = .ok receiver → segments token = [hd, p, sig] →
      verifier.segment libs p = some (.obj (minter.claims own receiver time ttl))

theorem Impl.claims_sub (own receiver : SpiffeId) (time : ℚ) (ttl : ℤ) (minter : Impl) :
    Members.get? (minter.claims own receiver time ttl) "sub" = some (.str own.toString) := by
  cases minter <;> simp [Impl.claims, Py.tokenClaims, Ts.tokenClaims, Go.tokenClaims, Members.get?]

theorem Impl.claims_aud (own receiver : SpiffeId) (time : ℚ) (ttl : ℤ) (minter : Impl) :
    Members.get? (minter.claims own receiver time ttl) "aud" = some (.str receiver.toString) := by
  cases minter <;> simp [Impl.claims, Py.tokenClaims, Ts.tokenClaims, Go.tokenClaims, Members.get?]

section

variable (rt : Runtime) (libs : Libs) (hpy : libs.py.Documented) (hgo : libs.go.Documented)
  (supply : ℕ → Point) (root : PathName) (hroot : PlainPath root) (hslash : NoSlash root)
  (other : Content → String) (compromised : String → Prop) (s₀ : Disk)
  (hfresh : s₀.tree.get (bundlePath root) = none)
  (hnone : ∀ name key, s₀.tree.get (keyPath root name) ≠ some (.file (.key key))) (w : World)
  (hrun : World.Run rt libs supply root other compromised (World.start s₀) w)
  (hsupply : Set.InjOn supply (Set.Iio w.disk.generated)) (hunforged : w.Unforged rt libs supply)
  (n : String) (peer : Identity) (hpeer : (n, peer) ∈ w.loaded) (verifier : Impl) (now leeway : ℚ)
  (token : String) (audience : Option String) (caller : Caller)
  (haccept : verifier.identityVerify supply w.disk libs peer now token audience leeway = some caller)

include hpy hgo hroot hslash hfresh hnone hrun hsupply hunforged hpeer haccept

end

/-! ### A world with one token -/

namespace Sample

def xIdentity : Identity := ⟨⟨"a.b", "/x"⟩, keyPath root "x", bundlePath root⟩

def ownSigning : Signing :=
  ⟨"x", basePoint, .minted .python xIdentity.id 0 "spiffe://a.b/x" 60 ownToken⟩

def world : World := ⟨registered, [("x", xIdentity)], [], [ownSigning]⟩

/-- A step of a run in which nobody is compromised. -/
abbrev WorldStep : World → World → Prop :=
  World.Step runtime ownLibs supply root (fun _ => "") (fun _ => False)

/-- A root with one service, which is loaded and mints. -/
theorem world_run :
    World.Run runtime ownLibs supply root (fun _ => "") (fun _ => False) (World.start emptyDisk)
      world := by
  have hname : PlainPath (splitSlash "x") := plain_of_isServiceName isServiceName_x
  have hload : Impl.python.loadIdentity supply (fun _ => "") registered root "x" = some xIdentity :=
    Impl.loadIdentity_of_files runtime plain_root noSlash_root hname rfl rfl rfl _ _
  have hkey : Impl.python.privateKey supply registered xIdentity = some basePoint :=
    Impl.privateKey_of_file (plainPath_keyPath plain_root hname) rfl _
  have hinit : WorldStep (World.start emptyDisk) (World.start initialised) :=
    .provision .typescript (.initRoot "a.b") initialised_returns.visits
  have hadd : WorldStep (World.start initialised) (World.start registered) :=
    .provision .typescript (.addService "x") registered_returns.visits
  have hstart : WorldStep (World.start registered) ⟨registered, [("x", xIdentity)], [], []⟩ :=
    .load .python "x" xIdentity hname hload
  have hmint : WorldStep ⟨registered, [("x", xIdentity)], [], []⟩ world :=
    .mint .python "x" xIdentity basePoint 0 "spiffe://a.b/x" 60 ownToken List.mem_cons_self hkey
      (by decide +kernel)
  exact (((Relation.ReflTransGen.single hinit).tail hadd).tail hstart).tail hmint

theorem segments_ownToken : segments ownToken = [mintedHeaderText, ownPayloadText, "c2ln"] := by
  decide +kernel

theorem world_unforged : world.Unforged runtime ownLibs supply := by
  intro i hi verifier input sig hverifies
  have hown : isOwn input sig = true := by
    cases verifier with
    | python =>
      obtain ⟨ms, key, -, -, h⟩ := hverifies
      exact h
    | typescript =>
      obtain ⟨key, -, h⟩ := hverifies
      exact Option.some.inj h
    | go =>
      obtain ⟨kid, key, -, h⟩ := hverifies
      exact h
  have hzero : i = 0 := by
    have hlt : i < 1 := hi
    omega
  rw [hzero]
  simp only [isOwn, Bool.and_eq_true, decide_eq_true_eq] at hown
  exact ⟨ownSigning, List.mem_cons_self, rfl, _, _, _, segments_ownToken, hown.1⟩

theorem world_supply : Set.InjOn supply (Set.Iio world.disk.generated) :=
  supply_injOn.mono fun _ hi => lt_of_lt_of_le (Set.mem_Iio.mp hi) (by decide)

theorem own_accepted :
    (Impl.typescript.identityVerify supply registered ownLibs xIdentity 89 ownToken none 30).isSome =
      true := by
  decide +kernel

theorem world_readable : world.Readable ownLibs .typescript := by
  intro e he minter own time audience ttl token huse receiver hd p sig hreceiver hseg
  obtain rfl := List.mem_singleton.mp he
  cases huse
  obtain rfl : receiver = ⟨"a.b", "/x"⟩ := (Except.ok.inj hreceiver).symm
  rw [segments_ownToken] at hseg
  cases hseg
  have hid : SpiffeId.toString ⟨"a.b", "/x"⟩ = "spiffe://a.b/x" := by decide
  simp [Impl.segment, ownLibs, ownSegment, ownPayloadText, mintedHeaderText, Impl.claims,
    Py.tokenClaims, ownClaims, Py.int, xIdentity, hid]

end Sample

end Spiffile
