import Spiffile.KeyReload
import Spiffile.Propagation

/-!
# Identities that stay up

A process signs with a key source that it keeps and verifies through a bundle
source that it keeps. `KeyReload` lets no file change during a call; here the key
file is replaced at any instant, for instance between the `stat` of a call and its
`read`. A key that can be read is one of P-256, so it has a `kid`.
-/

namespace Spiffile

open FileTree StampCache

/-! ### The key sources -/

/-- What the fields hold for a stamp is what was put there. -/
theorem KeyFields.lookup_keep {Stamp Key : Type} [DecidableEq Stamp] {stamp stamp' : Stamp}
    {kept kept' : Key × String}
    (h : KeyFields.lookup ⟨some stamp, some kept.1, kept.2⟩ stamp' = some kept') :
    stamp' = stamp ∧ kept' = kept := by
  simp only [KeyFields.lookup, ne_eq, Option.some.injEq, ite_not, Option.ite_none_right_eq_some] at h
  exact ⟨h.1, h.2.symm⟩

/-- A source with the fields of Python and TypeScript. -/
def keySourceWith {Stamp Printed ε : Type} [DecidableEq Printed] (print : Stamp → Printed)
    (hprint : Function.Injective print) (noStat : ε)
    (decode : Option Content → Except ε (Point × String)) :
    Source (KeyFields Printed Point) Stamp Content ε (Point × String) where
  new := KeyFields.new
  lookup self stamp := self.lookup (print stamp)
  keep stamp kept := ⟨some (print stamp), some kept.1, kept.2⟩
  noStat := noStat
  decode := decode
  lookup_new _ := rfl
  lookup_keep h := ⟨hprint (KeyFields.lookup_keep h).1, (KeyFields.lookup_keep h).2⟩

namespace Py

/-- `private_key_from_pem(self._path.read_bytes())`, and the `kid` of its JWK. -/
def keyIn (sha256 : Hash) : Option Content → Except Exn (Point × String)
  | some (.key key) =>
    match keySourceKid sha256 key with
    | some kid => .ok (key, kid)
    | none => .error (.lib (.other "OverflowError"))
  | some _ => .error (.lib (.other "ValueError"))
  | none => .error .osError

theorem stamp_injective : Function.Injective (id : ℚ × ℕ → ℚ × ℕ) := Function.injective_id

/-- `st_mtime` and `st_size` are kept as a tuple. -/
def keySource (sha256 : Hash) :
    Source (KeyFields (ℚ × ℕ) Point) (ℚ × ℕ) Content Exn (Point × String) :=
  keySourceWith id stamp_injective .osError (keyIn sha256)

/-- `Identity.token` with the answer of its key source. -/
def tokenWith (lib : PyJwt) (own : SpiffeId) (source : Except Exn (Point × String)) (time : ℚ)
    (audience : String) (ttl : ℤ) : Except Exn String := do
  let audienceId ← (parse audience).mapError fun e => .invalidSpiffeId e.fault (.str e.value)
  let (key, kid) ← source
  return lib.encode (tokenClaims own audienceId (int time) ttl) key algorithm
    [("kid", .str kid), ("typ", .str "JWT")]

end Py

namespace Ts

/-- `privateKeyFromPem(readFileSync(this.path))`, and the `kid` of its JWK. -/
def keyIn (sha256 : Hash) : Option Content → Except Exn (Point × String)
  | some (.key key) => .ok (key, keySourceKid sha256 key)
  | some _ => .error .cryptoError
  | none => .error .systemError

def keySource (numbers : NumberText) (sha256 : Hash) :
    Source (KeyFields String Point) (ℚ × ℕ) Content Exn (Point × String) :=
  keySourceWith numbers.stamp numbers.stamp_injective .systemError (keyIn sha256)

def tokenWith (node : Node) (own : SpiffeId) (source : Except Exn (Point × String)) (time : ℚ)
    (audience : String) (ttl : ℤ) : Except Exn String := do
  let audienceId ← (parse audience).mapError .invalidSpiffeId
  let (key, kid) ← source
  let header := node.writeSegment (tokenHeader kid)
  let claims := node.writeSegment (tokenClaims own audienceId ⌊time⌋ ttl)
  return signingInput header claims ++ "." ++ node.sign key (signingInput header claims)

end Ts

namespace Go

def keyIn (table : Char → Bool) (sha256 : Hash) : Option Content → Except Err (Point × String)
  | some (.key key) => .ok (key, (publicJwk table sha256 key).kid)
  | some _ => .error .key
  | none => .error .os

/-- `UnixNano` and the size are compared one by one. -/
def keySource (table : Char → Bool) (sha256 : Hash) :
    Source FileKeySource (ℤ × ℤ) Content Err (Point × String) where
  new := FileKeySource.new
  lookup := FileKeySource.lookup
  keep info kept := ⟨info.1, info.2, some kept.1, kept.2⟩
  noStat := .os
  decode := keyIn table sha256
  lookup_new _ := rfl
  lookup_keep h := by
    simp only [FileKeySource.lookup, ne_eq, ← not_and_or, ite_not, Option.ite_none_right_eq_some,
      Option.some.injEq] at h
    exact ⟨Prod.ext h.1.1 h.1.2, h.2.symm⟩

def tokenWith (lib : GoJwt) (own : SpiffeId) (source : Except Err (Point × String)) (time : ℚ)
    (audience : String) (ttl : ℚ) : Except Err String := do
  let audienceId ← (parseSpiffeID audience).mapError .invalidAudience
  let (key, kid) ← source
  return lib.signedString (tokenHeader kid) (tokenClaims own audienceId time (effectiveTTL ttl)) key

end Go

/-! ### A process and its key source -/

section

variable {Self Stamp ε : Type}

/-- In some run of the source, under a path that shows these files, a call
between the two instants got this answer. -/
def FoundIn (src : Source Self Stamp Content ε (Point × String)) (files : ℕ → Option Content)
    (start finish : ℕ) (answer : Except ε (Point × String)) : Prop :=
  ∃ (ι : Type) (_ : DecidableEq ι) (T : Timeline Stamp Content)
    (s : System ι Self Stamp Content ε (Point × String)),
      (∀ n, (T.file n).map Prod.snd = files n) ∧ Reachable src T s ∧
      ⟨start, finish, answer⟩ ∈ s.log

/-- The source reads private keys and nothing else, and what is minted with a key
it has read is what `mint` makes of this key. -/
structure ReadsKeys (src : Source Self Stamp Content ε (Point × String))
    (outcome : Except ε (Point × String) → Option String) (mint : Point → Option String) : Prop where
  read : ∀ key, ∃ kept, src.decode (some (.key key)) = .ok kept
  minted : ∀ content kept, src.decode content = .ok kept →
    ∃ key, content = some (.key key) ∧ outcome (.ok kept) = mint key
  failed : ∀ answer token, outcome answer = some token → ∃ kept, answer = .ok kept

variable {src : Source Self Stamp Content ε (Point × String)}
  {outcome : Except ε (Point × String) → Option String} {mint : Point → Option String}
  (hsrc : ReadsKeys src outcome mint) {files : ℕ → Option Content} {start finish : ℕ}
  {answer : Except ε (Point × String)} (h : FoundIn src files start finish answer)

include hsrc

theorem ReadsKeys.gone (kept : Point × String) : src.decode none ≠ .ok kept := by
  intro hnone
  obtain ⟨key, hkey, -⟩ := hsrc.minted none kept hnone
  cases hkey

include h

/-- A key that was found stood in the file at an instant of the call. -/
theorem FoundIn.at_instant {kept : Point × String} (hkept : answer = .ok kept) :
    ∃ n key, start ≤ n ∧ n ≤ finish ∧ files n = some (.key key) ∧ outcome answer = mint key := by
  obtain ⟨ι, _, T, s, hfiles, hreach, hlog⟩ := h
  have hanswers := hreach.consistent.log _ hlog
  dsimp only at hanswers
  rw [hkept] at hanswers
  obtain ⟨n, hstart, hfinish, hread⟩ := hanswers.found hsrc.gone
  obtain ⟨key, hkey, hmint⟩ := hsrc.minted _ _ hread
  exact ⟨n, key, hstart, hfinish, (hfiles n).symm.trans hkey, hkept ▸ hmint⟩

theorem FoundIn.readable
    (hall : ∀ n, start ≤ n → n ≤ finish → ∃ key, files n = some (.key key)) :
    ∃ kept, answer = .ok kept := by
  obtain ⟨ι, _, T, s, hfiles, hreach, hlog⟩ := h
  refine (hreach.consistent.log _ hlog).readable hsrc.gone fun n hstart hfinish => ?_
  obtain ⟨key, hkey⟩ := hall n hstart hfinish
  rw [hfiles n, hkey]
  exact hsrc.read key

/-- What a cached key source stands for: a source that reads at an instant. -/
theorem FoundIn.follows :
    (∀ token, outcome answer = some token → ∃ n key, start ≤ n ∧ n ≤ finish ∧
      files n = some (.key key) ∧ mint key = some token) ∧
    ((∀ n, start ≤ n → n ≤ finish → ∃ key, files n = some (.key key)) →
      ∃ n key, start ≤ n ∧ n ≤ finish ∧ files n = some (.key key) ∧ outcome answer = mint key) := by
  refine ⟨fun token htoken => ?_, fun hall => ?_⟩
  · obtain ⟨kept, hkept⟩ := hsrc.failed answer token htoken
    obtain ⟨n, key, hstart, hfinish, hfile, hmint⟩ := h.at_instant hsrc hkept
    exact ⟨n, key, hstart, hfinish, hfile, hmint.symm.trans htoken⟩
  · obtain ⟨kept, hkept⟩ := h.readable hsrc hall
    exact h.at_instant hsrc hkept

end

/-! ### The three signers -/

section

variable (own : SpiffeId) (time : ℚ) (audience : String) (sha256 : Hash)

theorem py_readsKeys (lib : Py.PyJwt) (ttl : ℤ) :
    ReadsKeys (Py.keySource sha256)
      (fun source => (Py.tokenWith lib own source time audience ttl).toOption)
      fun key => (Py.token lib sha256 own key time audience ttl).toOption where
  read key := ⟨(key, key.kid sha256), by
    simp only [Py.keySource, keySourceWith, Py.keyIn, py_keySourceKid]⟩
  minted content kept h := by
    change Py.keyIn sha256 content = .ok kept at h
    obtain - | d | key | text := content
    · cases h
    · cases h
    · simp only [Py.keyIn, py_keySourceKid] at h
      cases h
      refine ⟨key, rfl, ?_⟩
      simp only [Py.tokenWith, Py.token, py_keySourceKid]
      cases Py.parse audience <;> rfl
    · cases h
  failed answer token h := by
    obtain ⟨_, -, h⟩ := bind_eq_ok (toOption_eq_some h)
    obtain ⟨kept, hkept, -⟩ := bind_eq_ok h
    exact ⟨kept, hkept⟩

theorem ts_readsKeys (numbers : Ts.NumberText) (node : Ts.Node) (ttl : ℤ) :
    ReadsKeys (Ts.keySource numbers sha256)
      (fun source => (Ts.tokenWith node own source time audience ttl).toOption)
      fun key => (Ts.token node sha256 own key time audience ttl).toOption where
  read key := ⟨_, rfl⟩
  minted content kept h := by
    change Ts.keyIn sha256 content = .ok kept at h
    obtain - | d | key | text := content
    · cases h
    · cases h
    · cases h
      refine ⟨key, rfl, ?_⟩
      simp only [Ts.tokenWith, Ts.token]
      cases Ts.parse audience <;> rfl
    · cases h
  failed answer token h := by
    obtain ⟨_, -, h⟩ := bind_eq_ok (toOption_eq_some h)
    obtain ⟨kept, hkept, -⟩ := bind_eq_ok h
    exact ⟨kept, hkept⟩

theorem go_readsKeys (lib : Go.GoJwt) (table : Char → Bool) (ttl : ℚ) :
    ReadsKeys (Go.keySource table sha256)
      (fun source => (Go.tokenWith lib own source time audience ttl).toOption)
      fun key => (Go.token lib table sha256 own key time audience ttl).toOption where
  read key := ⟨_, rfl⟩
  minted content kept h := by
    change Go.keyIn table sha256 content = .ok kept at h
    obtain - | d | key | text := content
    · cases h
    · cases h
    · cases h
      refine ⟨key, rfl, ?_⟩
      simp only [Go.tokenWith, Go.token]
      cases Go.parseSpiffeID audience <;> rfl
    · cases h
  failed answer token h := by
    obtain ⟨_, -, h⟩ := bind_eq_ok (toOption_eq_some h)
    obtain ⟨kept, hkept, -⟩ := bind_eq_ok h
    exact ⟨kept, hkept⟩

end

/-- A process that keeps its key source comes to this outcome of `token`, between
two instants of the file. -/
def Impl.Mints (libs : Libs) (files : ℕ → Option Content) (start finish : ℕ) (own : SpiffeId)
    (time : ℚ) (audience : String) (ttl : ℤ) (outcome : Option String) : Impl → Prop
  | python => ∃ answer, FoundIn (Py.keySource libs.sha256) files start finish answer ∧
      outcome = (Py.tokenWith libs.py own answer time audience ttl).toOption
  | typescript => ∃ numbers answer,
      FoundIn (Ts.keySource numbers libs.sha256) files start finish answer ∧
      outcome = (Ts.tokenWith libs.node own answer time audience ttl).toOption
  | go => ∃ answer, FoundIn (Go.keySource libs.table libs.sha256) files start finish answer ∧
      outcome = (Go.tokenWith libs.go own answer time audience ttl).toOption

theorem Impl.Mints.follows {libs : Libs} {files : ℕ → Option Content} {start finish : ℕ}
    {own : SpiffeId} {time : ℚ} {audience : String} {ttl : ℤ} {outcome : Option String}
    {minter : Impl} (h : minter.Mints libs files start finish own time audience ttl outcome) :
    (∀ token, outcome = some token → ∃ n key, start ≤ n ∧ n ≤ finish ∧
      files n = some (.key key) ∧ minter.token libs own key time audience ttl = some token) ∧
    ((∀ n, start ≤ n → n ≤ finish → ∃ key, files n = some (.key key)) →
      ∃ n key, start ≤ n ∧ n ≤ finish ∧ files n = some (.key key) ∧
        outcome = minter.token libs own key time audience ttl) := by
  cases minter with
  | python =>
    obtain ⟨answer, hfound, rfl⟩ := h
    exact hfound.follows (py_readsKeys own time audience libs.sha256 libs.py ttl)
  | typescript =>
    obtain ⟨numbers, answer, hfound, rfl⟩ := h
    exact hfound.follows (ts_readsKeys own time audience libs.sha256 numbers libs.node ttl)
  | go =>
    obtain ⟨answer, hfound, rfl⟩ := h
    exact hfound.follows (go_readsKeys own time audience libs.sha256 libs.go libs.table ttl)

theorem Impl.findsBundle_of_bound {file : BundleFile} {id : String} {jwks : List Json}
    {reader : Impl} (h : reader.bound file id = some jwks) : reader.FindsBundle file := by
  cases reader with
  | python =>
    obtain ⟨b, hb, -⟩ := exists_of_toOption_bind h
    exact ⟨b, hb⟩
  | typescript =>
    obtain ⟨b, hb, -⟩ := exists_of_toOption_bind h
    exact ⟨b, hb⟩
  | go =>
    obtain ⟨b, hb, -⟩ := exists_of_toOption_bind h
    exact ⟨b, hb⟩

/-- Two processes with their sources: every key the signer may find is listed at
every instant at which the verifier may look. -/
theorem Impl.Mints.accepted {libs : Libs} (hpy : libs.py.Documented) (hgo : libs.go.Documented)
    {minter verifier : Impl} {sender receiver : SpiffeId} {time : ℚ} {ttl : ℤ}
    (hsender : Go.parseSpiffeID sender.toString = .ok sender)
    (hreceiver : Go.parseSpiffeID receiver.toString = .ok receiver) (hpos : 0 < ttl)
    (htime : minter = .python → 0 ≤ time) {now leeway : ℚ}
    (hwin : InWindow ⌊time⌋ (⌊time⌋ + ttl) leeway now) {files : ℕ → Option Content}
    {bundles : ℕ → BundleFile} {ms mf vs vf : ℕ}
    (hkeys : ∀ m, ms ≤ m → m ≤ mf → ∃ key, files m = some (.key key) ∧
      minter.Conveys libs verifier sender receiver key time ttl ∧ ∀ n, vs ≤ n → n ≤ vf →
        ∃ jwks, verifier.bound (bundles n) sender.toString = some jwks ∧ KeyList libs.sha256 key jwks)
    {outcome : Option String}
    (h : minter.Mints libs files ms mf sender time receiver.toString ttl outcome) :
    ∃ token, outcome = some token ∧ ∀ verdict,
      verifier.Decides libs bundles vs vf receiver now token none leeway verdict →
      verdict = some ⟨sender, .obj (minter.claims sender receiver time ttl)⟩ := by
  obtain ⟨m, key, hm, hmf, hfile, houtcome⟩ := h.follows.2 fun m hm hmf => by
    obtain ⟨key, hfile, -⟩ := hkeys m hm hmf
    exact ⟨key, hfile⟩
  obtain ⟨key', hfile', hconveys, hbound⟩ := hkeys m hm hmf
  rw [hfile] at hfile'
  cases hfile'
  obtain ⟨token, htoken⟩ := Impl.token_isSome libs sender receiver key time ttl hreceiver minter
  refine ⟨token, houtcome.trans htoken, fun verdict hverdict => ?_⟩
  refine hverdict.follows.2 _ fun n hn hnf => ?_
  obtain ⟨jwks, hjwks, hlist⟩ := hbound n hn hnf
  refine ⟨Impl.findsBundle_of_bound hjwks, ?_⟩
  rw [Impl.verifyFor_none]
  exact Impl.verify_of_minted hpy hgo hsender hreceiver hpos htime hconveys htoken hwin hjwks hlist

/-- What can be read at a path. -/
def fileAt (s : Disk) (p : PathName) : Option Content := (s.tree.read p).toOption

namespace Sample

/-- A file that is not touched, for any source. -/
def untouched {Stamp : Type} (stamp : Stamp) (content : Content) : Timeline Stamp Content where
  file _ := some (stamp, content)
  fresh _ := Or.inl rfl

theorem untouched_found {Self Stamp ε : Type} (src : Source Self Stamp Content ε (Point × String))
    (stamp : Stamp) (content : Content) :
    FoundIn src (fun _ => some content) 0 0 (src.decode (some content)) := by
  have hstart : Reachable src (untouched stamp content) _ := .refl (a := System.initial Unit src)
  obtain ⟨t, ht, hlog⟩ := hstart.answers (c := ()) rfl rfl
  exact ⟨Unit, inferInstance, _, t, fun _ => rfl, ht, hlog⟩

/-- What the process makes of the key it finds. -/
def liveOutcome : Option String :=
  (Py.tokenWith ownLibs.py xIdentity.id (Py.keyIn baseDigest (some (.key basePoint))) 0
    xIdentity.id.toString 60).toOption

theorem steady_mints : Impl.python.Mints ownLibs (fun _ => some (.key basePoint)) 0 0 xIdentity.id
    0 xIdentity.id.toString 60 liveOutcome :=
  ⟨_, untouched_found _ (0, 241) _, rfl⟩

end Sample

end Spiffile
