import Mathlib.Data.List.DropRight
import Spiffile.Revocation

/-!
# Identities from files

`identity.py`, `identity.ts` and `identity.go`: how an identity is configured,
read from its three files, and used. An environment variable holds the text of a
path; the working directory is the root of the tree. The files are read where
they stand, without the caches in front of them.
-/

namespace Spiffile

open FileTree

/-! ### The `id` file -/

/-- The code points that all three languages take for whitespace. -/
def sharedSpaces : List ℕ :=
  [0x09, 0x0a, 0x0b, 0x0c, 0x0d, 0x20, 0xa0, 0x1680, 0x2000, 0x2001, 0x2002, 0x2003, 0x2004, 0x2005,
    0x2006, 0x2007, 0x2008, 0x2009, 0x200a, 0x2028, 0x2029, 0x202f, 0x205f, 0x3000]

def isSpaceWith (own : List ℕ) (c : Char) : Bool :=
  sharedSpaces.contains c.toNat || own.contains c.toNat

/-- Without whitespace at either end. -/
def trimWith (space : Char → Bool) (s : String) : String :=
  String.ofList ((s.toList.dropWhile space).rdropWhile space)

namespace Py

/-- `str.isspace`: also the separators of ASCII. -/
def isSpace : Char → Bool := isSpaceWith [0x1c, 0x1d, 0x1e, 0x1f, 0x85]

/-- `str.strip()`. -/
def strip (s : String) : String := trimWith isSpace s

end Py

namespace Ts

/-- `WhiteSpace` and `LineTerminator`: also the byte order mark. -/
def isSpace : Char → Bool := isSpaceWith [0xfeff]

/-- `String.prototype.trim`. -/
def trim (s : String) : String := trimWith isSpace s

end Ts

namespace Go

/-- `unicode.IsSpace`. -/
def isSpace : Char → Bool := isSpaceWith [0x85]

/-- `strings.TrimSpace`. -/
def trimSpace (s : String) : String := trimWith isSpace s

end Go

/-! ### Loading -/

/-- A service's ID, and the paths of its two sources. -/
structure Identity where
  id : SpiffeId
  keyFile : PathName
  bundleFile : PathName

/-- The text of a file; `other` is that of JSON and of a private key. -/
def Content.asText (other : Content → String) : Content → String
  | .text s => s
  | c => other c

namespace Py

def fromFiles (other : Content → String) (idFile keyFile bundleFile : PathName) :
    Prog Cmd Ans Exn Identity := do
  let answer ← read idFile
  let content ← check raised answer
  let id ← .lift ((parse (strip (content.asText other))).mapError fun e =>
    .invalidSpiffeId e.fault (.str e.value))
  return ⟨id, keyFile, bundleFile⟩

/-- `_FileKeySource.get`, which keeps nothing. -/
def privateKey (self : Identity) : Prog Cmd Ans Exn Point := do
  let answer ← read self.keyFile
  match ← check raised answer with
  | .key key => return key
  | _ => .throw (.lib (.other "ValueError"))

/-- `Identity.token`: the audience is parsed before the key is fetched. -/
def identityToken (lib : PyJwt) (sha256 : Hash) (self : Identity) (time : ℚ) (audience : String)
    (ttl : ℤ) : Prog Cmd Ans Exn String := do
  let _ ← .lift ((parse audience).mapError fun e => .invalidSpiffeId e.fault (.str e.value))
  let key ← privateKey self
  .lift (token lib sha256 self.id key time audience ttl)

def identityVerify (lib : PyJwt) (self : Identity) (now : ℚ) (token : String)
    (audience : Option String) (leeway : ℚ) : Prog Cmd Ans Exn Caller := do
  let answer ← read self.bundleFile
  .lift (verify lib self.id (bundleFileWith .notJson answer) now token audience leeway)

end Py

namespace Ts

def fromFiles (other : Content → String) (idFile keyFile bundleFile : PathName) :
    Prog Cmd Ans Exn Identity := do
  let answer ← read idFile
  let content ← check raised answer
  let id ← .lift ((parse (trim (content.asText other))).mapError .invalidSpiffeId)
  return ⟨id, keyFile, bundleFile⟩

/-- `FileKeySource.get`, which keeps nothing. -/
def privateKey (self : Identity) : Prog Cmd Ans Exn Point := do
  let answer ← read self.keyFile
  match ← check raised answer with
  | .key key => return key
  | _ => .throw .cryptoError

def identityToken (node : Node) (sha256 : Hash) (self : Identity) (time : ℚ) (audience : String)
    (ttl : ℤ) : Prog Cmd Ans Exn String := do
  let _ ← .lift ((parse audience).mapError .invalidSpiffeId)
  let key ← privateKey self
  .lift (token node sha256 self.id key time audience ttl)

def identityVerify (node : Node) (self : Identity) (now : ℚ) (token : String)
    (audience : Option String) (leeway : ℚ) : Prog Cmd Ans Exn Caller := do
  let answer ← read self.bundleFile
  .lift (verify node self.id (bundleFileWith .missing answer) now token audience leeway)

end Ts

namespace Go

/-- `fileKeySource.get`, which keeps nothing. -/
def privateKey (self : Identity) : Prog Cmd Ans Err Point := do
  let answer ← read self.keyFile
  match ← check (fun _ => .os) answer with
  | .key key => return key
  | _ => .throw .key

/-- `FromFiles`: the key is loaded once at the start. -/
def fromFiles (other : Content → String) (idFile keyFile bundleFile : PathName) :
    Prog Cmd Ans Err Identity := do
  let answer ← read idFile
  let content ← check (fun _ => .os) answer
  let id ← .lift ((parseSpiffeID (trimSpace (content.asText other))).mapError .invalidId)
  let _ ← privateKey ⟨id, keyFile, bundleFile⟩
  return ⟨id, keyFile, bundleFile⟩

def identityToken (lib : GoJwt) (table : Char → Bool) (sha256 : Hash) (self : Identity) (time : ℚ)
    (audience : String) (ttl : ℚ) : Prog Cmd Ans Err String := do
  let _ ← .lift ((parseSpiffeID audience).mapError .invalidAudience)
  let key ← privateKey self
  .lift (token lib table sha256 self.id key time audience ttl)

def identityVerify (lib : GoJwt) (self : Identity) (now : ℚ) (token audience : String)
    (leeway : ℚ) : Prog Cmd Ans Err Caller := do
  let answer ← read self.bundleFile
  .lift (verify lib self.id (bundleFileWith .missing answer) now token audience leeway)

end Go

/-! ### The environment -/

def envDir : String := "SPIFFILE_DIR"
def envIdFile : String := "SPIFFILE_ID_FILE"
def envKeyFile : String := "SPIFFILE_KEY_FILE"
def envBundleFile : String := "SPIFFILE_BUNDLE_FILE"

/-- What a variable is set to. -/
abbrev Env : Type := String → Option String

/-- The three paths an identity is loaded from. -/
structure Files where
  idFile : PathName
  keyFile : PathName
  bundleFile : PathName

def notConfigured : String :=
  "identity not configured: set " ++ envDir ++ ", or " ++ envIdFile ++ " + " ++ envKeyFile ++ " + " ++
    envBundleFile

/-- All three are found, or none is used. -/
def filesWith (fileOf : String → String → Option PathName) : Option Files := do
  let idFile ← fileOf envIdFile idFilename
  let keyFile ← fileOf envKeyFile keyFilename
  let bundleFile ← fileOf envBundleFile bundleFilename
  return ⟨idFile, keyFile, bundleFile⟩

/-- A text that is not empty. -/
def truthy (value : Option String) : Option String := value.filter fun text => text ≠ ""

/-- The names in the text of a path. -/
def pathNames (text : String) : PathName :=
  match splitSlash text with
  | "" :: names => names
  | names => names

/-- `service_env`: the paths of a service's files, as text. -/
def serviceEnvWith (join : PathName → List String → PathName) (root : PathName) (name : String) :
    Env := fun var =>
  let serviceDir := join root [servicesDirname, name]
  if var = envIdFile then some (pathText (join serviceDir [idFilename]))
  else if var = envKeyFile then some (pathText (join serviceDir [keyFilename]))
  else if var = envBundleFile then some (pathText (join root [bundleFilename]))
  else none

/-- The paths that `load_identity` takes out of such an environment. -/
def envPaths (path : String → PathName) (env : Env) : Files where
  idFile := path ((env envIdFile).getD "")
  keyFile := path ((env envKeyFile).getD "")
  bundleFile := path ((env envBundleFile).getD "")

namespace Py

/-- `Path(text)`. -/
def path (text : String) : PathName := joinOne [] text

/-- `env.get(VARIABLE) or (directory and Path(directory) / FILENAME)`. -/
def fileOf (env : Env) (var filename : String) : Option PathName :=
  match truthy (env var) with
  | some file => some (path file)
  | none => (truthy (env envDir)).map fun directory => join (path directory) [filename]

def envFiles (env : Env) : Option Files := filesWith (fileOf env)

def fromEnv (other : Content → String) (env : Env) : Prog Cmd Ans Exn Identity :=
  match envFiles env with
  | some files => fromFiles other files.idFile files.keyFile files.bundleFile
  | none => .throw (.spiffile notConfigured)

def serviceEnv (root : PathName) (name : String) : Env := serviceEnvWith join root name

def loadIdentity (other : Content → String) (root : PathName) (name : String) :
    Prog Cmd Ans Exn Identity :=
  let files := envPaths path (serviceEnv root name)
  fromFiles other files.idFile files.keyFile files.bundleFile

end Py

namespace Ts

/-- `env[VARIABLE] ?? (dir ? join(dir, FILENAME) : undefined)`, where an empty
text is no path. -/
def fileOf (env : Env) (var filename : String) : Option PathName :=
  match env var with
  | some file => (truthy (some file)).map pathNames
  | none => (truthy (env envDir)).map fun dir => join (pathNames dir) [filename]

def envFiles (env : Env) : Option Files := filesWith (fileOf env)

def fromEnv (other : Content → String) (env : Env) : Prog Cmd Ans Exn Identity :=
  match envFiles env with
  | some files => fromFiles other files.idFile files.keyFile files.bundleFile
  | none => .throw (.spiffile notConfigured)

def serviceEnv (root : PathName) (name : String) : Env := serviceEnvWith join root name

def loadIdentity (other : Content → String) (root : PathName) (name : String) :
    Prog Cmd Ans Exn Identity :=
  let files := envPaths pathNames (serviceEnv root name)
  fromFiles other files.idFile files.keyFile files.bundleFile

end Ts

namespace Go

/-- `os.Getenv`. -/
def getenv (env : Env) (var : String) : String := (env var).getD ""

/-- A variable, or the name in the directory where that is set. -/
def fileOf (env : Env) (var filename : String) : Option PathName :=
  let dir := getenv env envDir
  let file := getenv env var
  if file ≠ "" then some (pathNames file)
  else if dir ≠ "" then some (join (pathNames dir) [filename]) else none

def envFiles (env : Env) : Option Files := filesWith (fileOf env)

/-- `FromEnv`: an error before any file is read, or the loading. -/
def fromEnv (other : Content → String) (env : Env) : Except String (Prog Cmd Ans Err Identity) :=
  match envFiles env with
  | some files => .ok (fromFiles other files.idFile files.keyFile files.bundleFile)
  | none => .error notConfigured

def serviceEnv (root : PathName) (name : String) : Env := serviceEnvWith join root name

def loadIdentity (other : Content → String) (root : PathName) (name : String) :
    Prog Cmd Ans Err Identity :=
  let files := envPaths pathNames (serviceEnv root name)
  fromFiles other files.idFile files.keyFile files.bundleFile

end Go

namespace Impl

/-- The ID in an `id` file with this text. -/
def idOf (text : String) : Impl → Option SpiffeId
  | python => (Py.parse (Py.strip text)).toOption
  | typescript => (Ts.parse (Ts.trim text)).toOption
  | go => (Go.parseSpiffeID (Go.trimSpace text)).toOption

def isSpace : Impl → Char → Bool
  | python => Py.isSpace
  | typescript => Ts.isSpace
  | go => Go.isSpace

def envFiles (env : Env) : Impl → Option Files
  | python => Py.envFiles env
  | typescript => Ts.envFiles env
  | go => Go.envFiles env

def serviceEnv (root : PathName) (name : String) : Impl → Env
  | python => Py.serviceEnv root name
  | typescript => Ts.serviceEnv root name
  | go => Go.serviceEnv root name

section

variable (supply : ℕ → Point) (other : Content → String) (s : Disk)

/-- `from_env` on a disk. -/
def fromEnv (env : Env) : Impl → Option Identity
  | python => ((Py.fromEnv other env).run (Disk.semantics supply) s).1.toOption
  | typescript => ((Ts.fromEnv other env).run (Disk.semantics supply) s).1.toOption
  | go =>
    match Go.fromEnv other env with
    | .ok loading => (loading.run (Disk.semantics supply) s).1.toOption
    | .error _ => none

/-- `load_identity` on a disk. -/
def loadIdentity (root : PathName) (name : String) : Impl → Option Identity
  | python => ((Py.loadIdentity other root name).run (Disk.semantics supply) s).1.toOption
  | typescript => ((Ts.loadIdentity other root name).run (Disk.semantics supply) s).1.toOption
  | go => ((Go.loadIdentity other root name).run (Disk.semantics supply) s).1.toOption

/-- The key an identity signs with. -/
def privateKey (self : Identity) : Impl → Option Point
  | python => ((Py.privateKey self).run (Disk.semantics supply) s).1.toOption
  | typescript => ((Ts.privateKey self).run (Disk.semantics supply) s).1.toOption
  | go => ((Go.privateKey self).run (Disk.semantics supply) s).1.toOption

def identityToken (libs : Libs) (self : Identity) (time : ℚ) (audience : String) (ttl : ℤ) :
    Impl → Option String
  | python => ((Py.identityToken libs.py libs.sha256 self time audience ttl).run
      (Disk.semantics supply) s).1.toOption
  | typescript => ((Ts.identityToken libs.node libs.sha256 self time audience ttl).run
      (Disk.semantics supply) s).1.toOption
  | go => ((Go.identityToken libs.go libs.table libs.sha256 self time audience ttl).run
      (Disk.semantics supply) s).1.toOption

/-- `verify`; Go's empty audience stands for the default one. -/
def identityVerify (libs : Libs) (self : Identity) (now : ℚ) (token : String)
    (audience : Option String) (leeway : ℚ) : Impl → Option Caller
  | python => ((Py.identityVerify libs.py self now token audience leeway).run
      (Disk.semantics supply) s).1.toOption
  | typescript => ((Ts.identityVerify libs.node self now token audience leeway).run
      (Disk.semantics supply) s).1.toOption
  | go => ((Go.identityVerify libs.go self now token (audience.getD "") leeway).run
      (Disk.semantics supply) s).1.toOption

end

end Impl

/-! ### Which `id` files are read alike -/

theorem exists_trim (space : Char → Bool) (s : String) :
    ∃ before after, s.toList = before ++ (trimWith space s).toList ++ after ∧
      ∀ c ∈ before ++ after, space c = true := by
  refine ⟨s.toList.takeWhile space, (s.toList.dropWhile space).rtakeWhile space, ?_, fun c hc => ?_⟩
  · rw [trimWith, String.toList_ofList, List.append_assoc, List.rdropWhile_append_rtakeWhile,
      List.takeWhile_append_dropWhile]
  · rcases List.mem_append.mp hc with hc | hc
    · exact List.mem_takeWhile_imp hc
    · exact List.mem_rtakeWhile_imp hc

/-- Nothing is dropped beyond the first kept element. -/
theorem dropWhile_append_solid {α : Type} {p : α → Bool} {before s : List α} (hne : s ≠ [])
    (hs : ∀ c ∈ s, p c = false) (hbefore : ∀ c ∈ before, p c = true) (rest : List α) :
    (before ++ (s ++ rest)).dropWhile p = s ++ rest := by
  obtain ⟨c, cs, rfl⟩ := List.exists_cons_of_ne_nil hne
  rw [List.dropWhile_append_of_pos hbefore, List.cons_append, List.dropWhile_cons_of_neg]
  rw [hs c List.mem_cons_self]
  exact Bool.false_ne_true

/-- Whitespace around a text without any is what goes. -/
theorem trimWith_surrounded {space : Char → Bool} {before s after : List Char} (hne : s ≠ [])
    (hs : ∀ c ∈ s, space c = false) (hspace : ∀ c ∈ before ++ after, space c = true) :
    trimWith space (String.ofList (before ++ s ++ after)) = String.ofList s := by
  have hleft : (before ++ (s ++ after)).dropWhile space = s ++ after :=
    dropWhile_append_solid hne hs (fun c hc => hspace c (List.mem_append_left _ hc)) after
  have hright : (after.reverse ++ (s.reverse ++ [])).dropWhile space = s.reverse ++ [] :=
    dropWhile_append_solid (mt List.reverse_eq_nil_iff.mp hne)
      (fun c hc => hs c (List.mem_reverse.mp hc))
      (fun c hc => hspace c (List.mem_append_right _ (List.mem_reverse.mp hc))) []
  rw [List.append_nil] at hright
  rw [trimWith, String.toList_ofList, List.append_assoc, hleft, List.rdropWhile, List.reverse_append,
    hright, List.reverse_reverse]

/-- Whitespace that some language trims and another does not. -/
def oddSpaces : List ℕ := [0x1c, 0x1d, 0x1e, 0x1f, 0x85, 0xfeff]

/-- A character of an ID is one of a path segment, or a separator. -/
theorem char_of_mem_id {id : SpiffeId} (hid : Go.parseSpiffeID id.toString = .ok id) {c : Char}
    (hc : c ∈ id.toString.toList) : (Go.isPathSegmentChar c || c == '/' || c == ':') = true := by
  obtain ⟨n, hn, -⟩ := exists_name_of_parse _ _ hid
  rw [hn, SpiffeName.render, String.toList_ofList, List.mem_append, List.mem_append] at hc
  rcases hc with (hc | hc) | hc
  · have hscheme : scheme.toList.all (fun c => Go.isPathSegmentChar c || c == '/' || c == ':') = true :=
      rfl
    exact List.all_eq_true.mp hscheme c hc
  · rw [isTrustDomainChar_le c (n.domain_ok.2 c hc)]
    rfl
  · obtain ⟨segment, hsegment, hc⟩ := List.mem_flatMap.mp hc
    rcases List.mem_cons.mp hc with rfl | hc
    · rfl
    · rw [(n.segments_ok segment hsegment).2.2.2 c hc]
      rfl

/-- No character of an ID is whitespace anywhere. -/
theorem isSpace_of_mem_id {id : SpiffeId} (hid : Go.parseSpiffeID id.toString = .ok id) {c : Char}
    (hc : c ∈ id.toString.toList) (impl : Impl) : impl.isSpace c = false := by
  have hchar := char_of_mem_id hid hc
  have hascii : c.toNat < 128 := by
    by_contra hge
    rw [isPathSegmentChar_ascii c (not_lt.mp hge), Bool.false_or] at hchar
    rcases Bool.or_eq_true_iff.mp hchar with h | h
    · rw [beq_iff_eq.mp h] at hge
      exact hge (by decide)
    · rw [beq_iff_eq.mp h] at hge
      exact hge (by decide)
  have hall : ∀ n < 128, (Go.isPathSegmentChar (Char.ofNat n) || Char.ofNat n == '/' ||
      Char.ofNat n == ':') = true → impl.isSpace (Char.ofNat n) = false := by
    cases impl <;> decide
  have h := hall c.toNat hascii
  rw [Char.ofNat_toNat] at h
  exact h hchar

theorem idOf_eq (text : String) (impl : Impl) :
    impl.idOf text = (Go.parseSpiffeID (trimWith impl.isSpace text)).toOption := by
  cases impl with
  | python => exact congrArg Except.toOption (py_parse_eq _)
  | typescript => exact congrArg Except.toOption (ts_parse_eq _)
  | go => rfl

theorem idOf_eq_some {impl : Impl} {text : String} {id : SpiffeId} :
    impl.idOf text = some id ↔ Go.parseSpiffeID id.toString = .ok id ∧
      ∃ before after, text.toList = before ++ id.toString.toList ++ after ∧
        ∀ c ∈ before ++ after, impl.isSpace c = true := by
  rw [idOf_eq]
  constructor
  · intro h
    have hparse := toOption_eq_some h
    have hstr : id.toString = trimWith impl.isSpace text := toString_of_parse hparse
    rw [hstr]
    exact ⟨hparse, exists_trim impl.isSpace text⟩
  · rintro ⟨hid, before, after, htext, hspace⟩
    have hne : id.toString.toList ≠ [] := by
      obtain ⟨n, hn, -⟩ := exists_name_of_parse _ _ hid
      rw [hn, SpiffeName.render, String.toList_ofList]
      exact fun h => absurd (congrArg List.length h) (by simp [scheme])
    have htrim := trimWith_surrounded hne (fun c hc => isSpace_of_mem_id hid hc impl) hspace
    rw [← htext, String.ofList_toList, String.ofList_toList] at htrim
    rw [htrim, hid]
    rfl

theorem isSpace_of_not_odd (a b : Impl) {c : Char} (hc : c.toNat ∉ oddSpaces) :
    a.isSpace c = b.isSpace c := by
  have hshared : ∀ impl : Impl, impl.isSpace c = sharedSpaces.contains c.toNat := by
    simp only [oddSpaces, List.mem_cons, List.not_mem_nil, or_false, not_or] at hc
    intro impl
    cases impl with
    | python => simp [Impl.isSpace, Py.isSpace, isSpaceWith, hc]
    | typescript => simp [Impl.isSpace, Ts.isSpace, isSpaceWith, hc]
    | go => simp [Impl.isSpace, Go.isSpace, isSpaceWith, hc]
  rw [hshared a, hshared b]

/-- Somebody trims an odd character and somebody does not. -/
theorem exists_isSpace_ne {c : Char} (hc : c.toNat ∈ oddSpaces) :
    ∃ a b : Impl, a.isSpace c = true ∧ b.isSpace c = false := by
  by_cases hbom : c.toNat = 0xfeff
  · exact ⟨.typescript, .go, by simp [Impl.isSpace, Ts.isSpace, isSpaceWith, hbom],
      by simp [Impl.isSpace, Go.isSpace, isSpaceWith, hbom, sharedSpaces]⟩
  · simp only [oddSpaces, List.mem_cons, List.not_mem_nil, or_false, hbom] at hc
    refine ⟨.python, .typescript, ?_, ?_⟩
    · rcases hc with h | h | h | h | h <;> simp [Impl.isSpace, Py.isSpace, isSpaceWith, h]
    · rcases hc with h | h | h | h | h <;>
        simp [Impl.isSpace, Ts.isSpace, isSpaceWith, h, sharedSpaces]

/-- The three find the same in an `id` file, unless one of them finds an ID and
a character stands in the file that only some of them trim. -/
theorem id_files_agree_iff (text : String) :
    (∀ a b : Impl, a.idOf text = b.idOf text) ↔
      ∀ (impl : Impl) (id : SpiffeId), impl.idOf text = some id →
        ∀ c ∈ text.toList, c.toNat ∉ oddSpaces := by
  constructor
  · intro hagree impl id hid c hc hodd
    obtain ⟨trims, other, htrims, hother⟩ := exists_isSpace_ne hodd
    obtain ⟨hparse, before, after, htext, hspace⟩ := idOf_eq_some.mp ((hagree other impl).trans hid)
    rw [htext, List.append_assoc, List.mem_append, List.mem_append] at hc
    rcases hc with hc | hc | hc
    · rw [hspace c (List.mem_append_left _ hc)] at hother
      cases hother
    · rw [isSpace_of_mem_id hparse hc trims] at htrims
      cases htrims
    · rw [hspace c (List.mem_append_right _ hc)] at hother
      cases hother
  · intro hno a b
    have hmono : ∀ (a b : Impl) (id : SpiffeId), a.idOf text = some id → b.idOf text = some id := by
      intro a b id hid
      obtain ⟨hparse, before, after, htext, hspace⟩ := idOf_eq_some.mp hid
      refine idOf_eq_some.mpr ⟨hparse, before, after, htext, fun c hc => ?_⟩
      have hmem : c ∈ text.toList := by
        rw [htext, List.append_assoc, List.mem_append, List.mem_append]
        rcases List.mem_append.mp hc with hc | hc
        · exact Or.inl hc
        · exact Or.inr (Or.inr hc)
      rw [isSpace_of_not_odd b a (hno a id hid c hmem)]
      exact hspace c hc
    exact Option.ext fun id => ⟨hmono a b id, hmono b a id⟩

example : Impl.go.idOf "spiffe://a.b/x\n" = Impl.typescript.idOf "spiffe://a.b/x\n" := by decide

/-! ### Which environments are read alike -/

/-- The text of an absolute path without empty names and dots. -/
def IsPathText (text : String) : Prop :=
  ∃ p : PathName, p ≠ [] ∧ PlainPath p ∧ (∀ name ∈ p, '/' ∉ name.toList) ∧ text = pathText p

theorem splitSlash_pathText {p : PathName} (hne : p ≠ []) (hslash : ∀ name ∈ p, '/' ∉ name.toList) :
    splitSlash (pathText p) = "" :: p := by
  have hchars : (pathText p).toList = '/' :: ['/'].intercalate (p.map String.toList) := by
    simp [pathText, String.toList_append, String.toList_intercalate]
  have hsplit : (['/'].intercalate (p.map String.toList)).splitOn '/' = p.map String.toList := by
    refine List.splitOn_intercalate '/' (fun l hl => ?_) (by simpa using hne)
    obtain ⟨name, hname, rfl⟩ := List.mem_map.mp hl
    exact hslash name hname
  rw [splitSlash, hchars, ← List.nil_append ('/' :: _), List.splitOn_append_cons_self, hsplit]
  simp [List.map_map, Function.comp_def]

theorem pathNames_pathText {p : PathName} (hne : p ≠ []) (hslash : ∀ name ∈ p, '/' ∉ name.toList) :
    pathNames (pathText p) = p := by
  rw [pathNames, splitSlash_pathText hne hslash]
  rfl

theorem py_path_pathText {p : PathName} (hne : p ≠ []) (hplain : PlainPath p)
    (hslash : ∀ name ∈ p, '/' ∉ name.toList) : Py.path (pathText p) = p := by
  have hfilter : ("" :: p).filter (fun name => name ≠ "" ∧ name ≠ ".") = p := by
    rw [List.filter_cons_of_neg (by simp), List.filter_eq_self]
    exact fun name hname => by simp [(hplain name hname).ne_empty, (hplain name hname).ne_dot]
  have hhead : (pathText p).toList.head? = some '/' := by simp [pathText]
  rw [Py.path, Py.joinOne, splitSlash_pathText hne hslash, hfilter, if_pos hhead]

theorem pathText_ne_empty (p : PathName) : pathText p ≠ "" := by
  intro h
  have := congrArg String.toList h
  simp [pathText] at this

/-- A path's text leads to the same place in all three. -/
theorem IsPathText.names_eq {text : String} (h : IsPathText text) :
    Py.path text = pathNames text ∧ PlainPath (pathNames text) := by
  obtain ⟨p, hne, hplain, hslash, rfl⟩ := h
  rw [py_path_pathText hne hplain hslash, pathNames_pathText hne hslash]
  exact ⟨rfl, hplain⟩

theorem join_filename {base : PathName} (hbase : PlainPath base) {filename : String}
    (hplain : Volume.Plain filename) (hsplit : splitSlash filename = [filename]) :
    Py.join base [filename] = base ++ [filename] ∧ Ts.join base [filename] = base ++ [filename] ∧
      Go.join base [filename] = base ++ [filename] := by
  have hparts : ∀ part ∈ [filename], ∀ name ∈ splitSlash part, Volume.Plain name := by
    intro part hpart name hname
    rw [List.mem_singleton.mp hpart, hsplit] at hname
    exact List.mem_singleton.mp hname ▸ hplain
  have hflat : [filename].flatMap splitSlash = [filename] := by
    rw [List.flatMap_singleton, hsplit]
  rw [py_join_plain hparts, ts_join_plain hbase hparts, go_join_plain hbase hparts, hflat]
  exact ⟨rfl, rfl, rfl⟩

/-- Every variable is unset, empty, or the text of such a path. -/
def PathEnv (env : Env) : Prop := ∀ var text, env var = some text → text = "" ∨ IsPathText text

theorem truthy_eq_some {value : Option String} {text : String} :
    truthy value = some text ↔ value = some text ∧ text ≠ "" := by
  simp [truthy, Option.filter_eq_some_iff]

section

variable {env : Env} (h : PathEnv env) {var filename : String}

include h

theorem PathEnv.names_eq {text : String} (ht : truthy (env var) = some text) :
    Py.path text = pathNames text ∧ PlainPath (pathNames text) := by
  obtain ⟨hvar, hne⟩ := truthy_eq_some.mp ht
  exact ((h var text hvar).resolve_left hne).names_eq

theorem go_fileOf_eq (hplain : Volume.Plain filename) (hsplit : splitSlash filename = [filename]) :
    Go.fileOf env var filename = Py.fileOf env var filename := by
  have hgetenv : ∀ v : String, truthy (env v) =
      if Go.getenv env v ≠ "" then some (Go.getenv env v) else none := by
    intro v
    rw [Go.getenv, truthy]
    cases env v with
    | none => rfl
    | some text => simp [Option.filter_some]
  rw [Go.fileOf, Py.fileOf]
  cases hvar : truthy (env var) with
  | some text =>
    have hvar' := hgetenv var
    rw [hvar] at hvar'
    split_ifs at hvar' with hne
    cases hvar'
    rw [if_pos hne]
    exact congrArg some (h.names_eq hvar).1.symm
  | none =>
    have hvar' := hgetenv var
    rw [hvar] at hvar'
    split_ifs at hvar' with hne
    rw [if_neg hne]
    cases hdir : truthy (env envDir) with
    | none =>
      have hdir' := hgetenv envDir
      rw [hdir] at hdir'
      split_ifs at hdir' with hne'
      rw [if_neg hne']
      rfl
    | some dir =>
      have hdir' := hgetenv envDir
      rw [hdir] at hdir'
      split_ifs at hdir' with hne'
      cases hdir'
      obtain ⟨hpath, hbase⟩ := h.names_eq hdir
      obtain ⟨hpy, -, hgo⟩ := join_filename hbase hplain hsplit
      rw [if_pos hne', Option.map_some, hpath, hpy, hgo]

/-- TypeScript takes an empty variable for a value, and finds no path then. -/
theorem ts_fileOf_eq (hplain : Volume.Plain filename) (hsplit : splitSlash filename = [filename]) :
    Ts.fileOf env var filename =
      if env var = some "" then none else Py.fileOf env var filename := by
  rw [Ts.fileOf, Py.fileOf]
  cases hvar : env var with
  | none =>
    rw [if_neg (by simp)]
    cases hdir : truthy (env envDir) with
    | none => rfl
    | some dir =>
      obtain ⟨hpath, hbase⟩ := h.names_eq hdir
      obtain ⟨hpy, hts, -⟩ := join_filename hbase hplain hsplit
      change some (Ts.join (pathNames dir) [filename]) = some (Py.join (Py.path dir) [filename])
      rw [hpath, hpy, hts]
  | some text =>
    by_cases hempty : text = ""
    · rw [hempty, if_pos rfl]
      rfl
    · have htruthy : truthy (some text) = some text := truthy_eq_some.mpr ⟨rfl, hempty⟩
      rw [if_neg (by simpa using hempty)]
      simp only [htruthy, Option.map_some]
      rw [(h.names_eq (hvar ▸ htruthy : truthy (env var) = some text)).1]

end

theorem filesWith_congr {f g : String → String → Option PathName}
    (hid : f envIdFile idFilename = g envIdFile idFilename)
    (hkey : f envKeyFile keyFilename = g envKeyFile keyFilename)
    (hbundle : f envBundleFile bundleFilename = g envBundleFile bundleFilename) :
    filesWith f = filesWith g := by
  rw [filesWith, filesWith, hid, hkey, hbundle]

theorem filesWith_eq_some {f : String → String → Option PathName} {files : Files} :
    filesWith f = some files ↔ f envIdFile idFilename = some files.idFile ∧
      f envKeyFile keyFilename = some files.keyFile ∧
      f envBundleFile bundleFilename = some files.bundleFile := by
  obtain ⟨p, q, r⟩ := files
  rw [filesWith]
  cases f envIdFile idFilename <;> cases f envKeyFile keyFilename <;>
    cases f envBundleFile bundleFilename <;> simp

/-- With a directory every file is found. -/
theorem exists_envFiles {env : Env} {dir : String} (hdir : truthy (env envDir) = some dir) :
    ∃ files, Py.envFiles env = some files := by
  have hfile : ∀ var filename, ∃ p, Py.fileOf env var filename = some p := by
    intro var filename
    rw [Py.fileOf, hdir]
    cases truthy (env var) with
    | some text => exact ⟨_, rfl⟩
    | none => exact ⟨_, rfl⟩
  obtain ⟨p, hp⟩ := hfile envIdFile idFilename
  obtain ⟨q, hq⟩ := hfile envKeyFile keyFilename
  obtain ⟨r, hr⟩ := hfile envBundleFile bundleFilename
  exact ⟨⟨p, q, r⟩, filesWith_eq_some.mpr ⟨hp, hq, hr⟩⟩

namespace Sample

/-- A directory, and a variable that is emptied. -/
def emptied : Env := fun var =>
  if var = envDir then some "/srv" else if var = envIdFile then some "" else none

theorem pathEnv_emptied : PathEnv emptied := by
  intro var text h
  unfold emptied at h
  split_ifs at h
  · cases h
    refine Or.inr ⟨["srv"], by simp, plainPath_singleton ⟨by decide, by decide, by decide, by decide⟩,
      by decide, by decide⟩
  · cases h
    exact Or.inl rfl

end Sample

theorem serviceEnvWith_id (join : PathName → List String → PathName) (root : PathName) (name : String) :
    serviceEnvWith join root name envIdFile =
      some (pathText (join (join root [servicesDirname, name]) [idFilename])) := rfl

theorem serviceEnvWith_key (join : PathName → List String → PathName) (root : PathName)
    (name : String) : serviceEnvWith join root name envKeyFile =
      some (pathText (join (join root [servicesDirname, name]) [keyFilename])) := rfl

theorem serviceEnvWith_bundle (join : PathName → List String → PathName) (root : PathName)
    (name : String) : serviceEnvWith join root name envBundleFile =
      some (pathText (join root [bundleFilename])) := rfl

/-- The variables of a service over those of the process. -/
def Env.over (own base : Env) : Env := fun var => (own var).or (base var)

/-- Whatever else is set, the variables of a service stand for its files. -/
theorem fromEnv_serviceEnv (supply : ℕ → Point) (other : Content → String) (s : Disk) (root : PathName)
    (name : String) (base : Env) (impl : Impl) :
    impl.fromEnv supply other s ((impl.serviceEnv root name).over base) =
      impl.loadIdentity supply other s root name := by
  have htruthy : ∀ p, truthy (some (pathText p)) = some (pathText p) :=
    fun p => truthy_eq_some.mpr ⟨rfl, pathText_ne_empty p⟩
  cases impl with
  | python =>
    have hfiles : Py.envFiles ((Py.serviceEnv root name).over base) =
        some (envPaths Py.path (Py.serviceEnv root name)) := by
      refine filesWith_eq_some.mpr ⟨?_, ?_, ?_⟩ <;>
        simp only [Py.fileOf, Env.over, Py.serviceEnv, serviceEnvWith_id, serviceEnvWith_key,
          serviceEnvWith_bundle, Option.some_or, htruthy, envPaths, Option.getD_some]
    simp only [Impl.fromEnv, Impl.serviceEnv, Py.fromEnv, hfiles]
    rfl
  | typescript =>
    have hfiles : Ts.envFiles ((Ts.serviceEnv root name).over base) =
        some (envPaths pathNames (Ts.serviceEnv root name)) := by
      refine filesWith_eq_some.mpr ⟨?_, ?_, ?_⟩ <;>
        simp only [Ts.fileOf, Env.over, Ts.serviceEnv, serviceEnvWith_id, serviceEnvWith_key,
          serviceEnvWith_bundle, Option.some_or, htruthy, envPaths, Option.getD_some,
          Option.map_some]
    simp only [Impl.fromEnv, Impl.serviceEnv, Ts.fromEnv, hfiles]
    rfl
  | go =>
    have hfiles : Go.envFiles ((Go.serviceEnv root name).over base) =
        some (envPaths pathNames (Go.serviceEnv root name)) := by
      refine filesWith_eq_some.mpr ⟨?_, ?_, ?_⟩ <;>
        simp only [Go.fileOf, Go.getenv, Env.over, Go.serviceEnv, serviceEnvWith_id,
          serviceEnvWith_key, serviceEnvWith_bundle, Option.some_or, envPaths, Option.getD_some,
          ne_eq, pathText_ne_empty, not_false_eq_true, if_true]
    simp only [Impl.fromEnv, Impl.serviceEnv, Go.fromEnv, hfiles]
    rfl

end Spiffile
