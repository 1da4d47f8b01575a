import Spiffile.Disk
import Spiffile.Verify

/-!
# Provisioning

`provision.py`, `provision.ts` and `provision.go`. Three of the four operations
are the same program in each language, up to how a path is joined, an ID
parsed, an old key carried over and an error raised; a `Kit` holds these. The
last one removes files in its own way.
-/

namespace Spiffile

open FileTree

/-- What a language brings to the provisioning functions. -/
structure Kit (ε τ κ : Type) where
  join : PathName → List String → PathName
  /-- What reading the bundle's file gave. -/
  file : Except Errno Content → BundleFile
  parseBundle : BundleFile → Except ε (Bundle τ)
  serialise : Bundle τ → Json
  /-- The trust domain `init` is given, and its text in an ID. -/
  trustDomain : String → τ
  text : τ → String
  parseId : String → Except ε SpiffeId
  publicJwk : Point → Except ε κ
  jwkJson : κ → Json
  /-- The old keys whose `kid` is another one. -/
  keepOthers : κ → List Json → Except ε (List Json)
  /-- The mode of a key file is set by a call of its own. -/
  setsMode : Bool
  alreadyInitialized : PathName → ε
  unknownService : String → PathName → ε
  raised : Errno → ε

section

variable {ε τ κ : Type} (kit : Kit ε τ κ)

def readBundleWith (root : PathName) : Prog Cmd Ans ε (Bundle τ) := do
  let answer ← read (kit.join root [bundleFilename])
  .lift (kit.parseBundle (kit.file answer))

def writeBundleWith (path : PathName) (bundle : Bundle τ) : Prog Cmd Ans ε Unit := do
  let done ← write path (.json (kit.serialise bundle))
  check kit.raised done

def setKeysWith (root : PathName) (bundle : Bundle τ) (spiffeId : String) (keys : List Json) :
    Prog Cmd Ans ε Unit :=
  writeBundleWith kit (kit.join root [bundleFilename])
    { bundle with identities := bundle.identities.insert spiffeId keys }

def writeKeyWith (keyPath : PathName) (key : Point) : Prog Cmd Ans ε Unit := do
  let done ← write keyPath (.key key)
  check kit.raised done
  if kit.setsMode then
    let done ← chmod keyPath
    check kit.raised done

def initRootWith (root : PathName) (trustDomain : String) : Prog Cmd Ans ε Unit := do
  let bundlePath := kit.join root [bundleFilename]
  if ← present bundlePath then
    .throw (kit.alreadyInitialized bundlePath)
  else
    let done ← mkdirs (kit.join root [servicesDirname])
    check kit.raised done
    writeBundleWith kit bundlePath ⟨kit.trustDomain trustDomain, ∅⟩

/-- The rest of `add_service` for a service without a key. -/
def provisionWith (root : PathName) (bundle : Bundle τ) (spiffeId : SpiffeId) (serviceDir : PathName) :
    Prog Cmd Ans ε SpiffeId := do
  let done ← mkdirs serviceDir
  check kit.raised done
  let privateKey ← generateKey
  writeKeyWith kit (kit.join serviceDir [keyFilename]) privateKey
  let done ← write (kit.join serviceDir [idFilename]) (.text (spiffeId.toString ++ "\n"))
  check kit.raised done
  let jwk ← .lift (kit.publicJwk privateKey)
  setKeysWith kit root bundle spiffeId.toString [kit.jwkJson jwk]
  return spiffeId

def addServiceWith (root : PathName) (name : String) : Prog Cmd Ans ε SpiffeId := do
  let bundle ← readBundleWith kit root
  let spiffeId ← .lift (kit.parseId (serviceId (kit.text bundle.trustDomain) name))
  let serviceDir := kit.join root [servicesDirname, name]
  if ← present (kit.join serviceDir [keyFilename]) then
    return spiffeId
  else
    provisionWith kit root bundle spiffeId serviceDir

/-- The rest of `rotate_service` for a service with a key. -/
def renewWith (root : PathName) (bundle : Bundle τ) (spiffeId : SpiffeId) (keyPath : PathName)
    (keepOld : Bool) : Prog Cmd Ans ε SpiffeId := do
  let privateKey ← generateKey
  let newJwk ← .lift (kit.publicJwk privateKey)
  let existing :=
    if keepOld then (bundle.identities.lookup spiffeId.toString).getD [] else []
  let others ← .lift (kit.keepOthers newJwk existing)
  writeKeyWith kit keyPath privateKey
  setKeysWith kit root bundle spiffeId.toString (kit.jwkJson newJwk :: others)
  return spiffeId

def rotateServiceWith (root : PathName) (name : String) (keepOld : Bool) :
    Prog Cmd Ans ε SpiffeId := do
  let bundle ← readBundleWith kit root
  let spiffeId ← .lift (kit.parseId (serviceId (kit.text bundle.trustDomain) name))
  let keyPath := kit.join root [servicesDirname, name, keyFilename]
  if ← present keyPath then
    renewWith kit root bundle spiffeId keyPath keepOld
  else
    .throw (kit.unknownService name keyPath)

/-- `remove_service`, with the removal of the directory. -/
def removeServiceWith (removeFiles : PathName → Prog Cmd Ans ε Unit) (root : PathName) (name : String) :
    Prog Cmd Ans ε Unit := do
  let bundle ← readBundleWith kit root
  writeBundleWith kit (kit.join root [bundleFilename])
    { bundle with
      identities := bundle.identities.erase (serviceId (kit.text bundle.trustDomain) name) }
  removeFiles (kit.join root [servicesDirname, name])

end

/-- What the three run on: SHA-256, Go's printing table, Python's text of a
trust domain that is no string, and how Node's `rmSync` takes a file in the
way. -/
structure Runtime where
  sha256 : Hash
  table : Char → Bool
  format : Json → String
  lenient : Bool

/-- The content of a bundle file; `atDir` is what a directory there comes to. -/
def bundleFileWith (atDir : BundleFile) : Except Errno Content → BundleFile
  | .ok (.json d) => .doc d
  | .ok _ => .notJson
  | .error .isDir => atDir
  | .error _ => .missing

namespace Py

def raised : Errno → Exn
  | .inval => .lib (.other "ValueError")
  | _ => .osError

/-- `[j for j in existing if j.get("kid") != new_jwk["kid"]]`: only a dict has
`get`. -/
def keepOthers (newJwk : Members) (existing : List Json) : Except Exn (List Json) :=
  match asDicts existing with
  | none => .error .attributeError
  | some dicts =>
    .ok ((dicts.filter fun j =>
      !Json.pyGetEq (Members.get? j "kid") (Members.get? newJwk "kid")).map .obj)

def kit (rt : Runtime) : Kit Exn Json Members where
  join := join
  file := bundleFileWith .notJson
  parseBundle := readBundle
  serialise := toDict
  trustDomain := .str
  text td :=
    match td with
    | .str s => s
    | v => rt.format v
  parseId s := (parse s).mapError fun e => .invalidSpiffeId e.fault (.str e.value)
  publicJwk p :=
    match publicJwk rt.sha256 p.x p.y with
    | some jwk => .ok jwk
    | none => .error (.lib (.other "OverflowError"))
  jwkJson := .obj
  keepOthers := keepOthers
  setsMode := true
  alreadyInitialized p := .spiffile ("already initialized: " ++ pathText p)
  unknownService name p :=
    .spiffile ("unknown service '" ++ name ++ "': " ++ pathText p ++ " does not exist")
  raised := raised

/-- `unlink(missing_ok=True)`. -/
def unlinkMissingOk (p : PathName) : Prog Cmd Ans Exn Unit := do
  match ← unlink p with
  | .ok () => return ()
  | .error .noent => return ()
  | .error e => .throw (raised e)

def removeFiles (serviceDir : PathName) : Prog Cmd Ans Exn Unit := do
  unlinkMissingOk (join serviceDir [idFilename])
  unlinkMissingOk (join serviceDir [keyFilename])
  if ← present serviceDir then
    let done ← rmdir serviceDir
    check raised done

def initRoot (rt : Runtime) (root : PathName) (trustDomain : String) : Prog Cmd Ans Exn Unit :=
  initRootWith (kit rt) root trustDomain

def addService (rt : Runtime) (root : PathName) (name : String) : Prog Cmd Ans Exn SpiffeId :=
  addServiceWith (kit rt) root name

def rotateService (rt : Runtime) (root : PathName) (name : String) (keepOld : Bool) :
    Prog Cmd Ans Exn SpiffeId :=
  rotateServiceWith (kit rt) root name keepOld

def removeService (rt : Runtime) (root : PathName) (name : String) : Prog Cmd Ans Exn Unit :=
  removeServiceWith (kit rt) removeFiles root name

end Py

namespace Ts

def raised : Errno → Exn
  | .inval => .typeError
  | _ => .systemError

/-- `existing.filter((jwk) => jwk.kid !== newJwk.kid)`: only `null` has no
properties. -/
def keepOthers (newJwk : Members) (existing : List Json) : Except Exn (List Json) :=
  match existing.mapM fun jwk => (Json.jsProp? jwk "kid").map fun kid => (jwk, kid) with
  | none => .error .typeError
  | some kids =>
    .ok ((kids.filter fun k => !Json.jsStrictEq k.2 (Members.get? newJwk "kid")).map Prod.fst)

def kit (rt : Runtime) : Kit Exn String Members where
  join := join
  file := bundleFileWith .missing
  parseBundle := readBundle
  serialise := toDocument
  trustDomain := id
  text := id
  parseId s := (parse s).mapError .invalidSpiffeId
  publicJwk p := .ok (publicJwk rt.sha256 (exportJwk p))
  jwkJson := .obj
  keepOthers := keepOthers
  setsMode := true
  alreadyInitialized p := .spiffile ("already initialized: " ++ pathText p)
  unknownService name p :=
    .spiffile ("unknown service '" ++ name ++ "': " ++ pathText p ++ " does not exist")
  raised := raised

/-- `rmSync(path, { recursive: true, force: true })`. -/
def removeFiles (rt : Runtime) (serviceDir : PathName) : Prog Cmd Ans Exn Unit := do
  let done ← removeAll serviceDir rt.lenient
  check raised done

def initRoot (rt : Runtime) (root : PathName) (trustDomain : String) : Prog Cmd Ans Exn Unit :=
  initRootWith (kit rt) root trustDomain

def addService (rt : Runtime) (root : PathName) (name : String) : Prog Cmd Ans Exn SpiffeId :=
  addServiceWith (kit rt) root name

def rotateService (rt : Runtime) (root : PathName) (name : String) (keepOld : Bool) :
    Prog Cmd Ans Exn SpiffeId :=
  rotateServiceWith (kit rt) root name keepOld

def removeService (rt : Runtime) (root : PathName) (name : String) : Prog Cmd Ans Exn Unit :=
  removeServiceWith (kit rt) (removeFiles rt) root name

end Ts

namespace Go

/-- The loop over the old keys: each is decoded and written again. -/
def keepOthers (newJwk : JWK) (existing : List Json) : List Json :=
  (existing.filterMap fun raw => (decodeJwk raw).filter fun jwk => jwk.kid ≠ newJwk.kid).map
    JWK.marshal

def kit (rt : Runtime) : Kit Err String JWK where
  join := join
  file := bundleFileWith .missing
  parseBundle := readBundle
  serialise := marshalBundle
  trustDomain := id
  text := id
  parseId s := (parseSpiffeID s).mapError .invalidId
  publicJwk p := .ok (publicJwk rt.table rt.sha256 p)
  jwkJson := JWK.marshal
  keepOthers newJwk existing := .ok (keepOthers newJwk existing)
  setsMode := false
  alreadyInitialized p := .alreadyInitialized (pathText p)
  unknownService name _ := .unknownService name
  raised _ := .os

/-- `os.RemoveAll`. -/
def removeFiles (serviceDir : PathName) : Prog Cmd Ans Err Unit := do
  let done ← removeAll serviceDir false
  check (fun _ => .os) done

def initRoot (rt : Runtime) (root : PathName) (trustDomain : String) : Prog Cmd Ans Err Unit :=
  initRootWith (kit rt) root trustDomain

def addService (rt : Runtime) (root : PathName) (name : String) : Prog Cmd Ans Err SpiffeId :=
  addServiceWith (kit rt) root name

def rotateService (rt : Runtime) (root : PathName) (name : String) (keepOld : Bool) :
    Prog Cmd Ans Err SpiffeId :=
  rotateServiceWith (kit rt) root name keepOld

def removeService (rt : Runtime) (root : PathName) (name : String) : Prog Cmd Ans Err Unit :=
  removeServiceWith (kit rt) removeFiles root name

end Go

/-! ### Calls -/

inductive Call where
  | initRoot (trustDomain : String)
  | addService (name : String)
  | rotateService (name : String) (keepOld : Bool)
  | removeService (name : String)

/-- A call whose value is dropped. -/
def discard {ε α : Type} (p : Prog Cmd Ans ε α) : Prog Cmd Ans ε Unit := do
  let _ ← p
  return ()

def performWith {ε τ κ : Type} (kit : Kit ε τ κ) (removeFiles : PathName → Prog Cmd Ans ε Unit)
    (root : PathName) : Call → Prog Cmd Ans ε Unit
  | .initRoot trustDomain => initRootWith kit root trustDomain
  | .addService name => discard (addServiceWith kit root name)
  | .rotateService name keepOld => discard (rotateServiceWith kit root name keepOld)
  | .removeService name => removeServiceWith kit removeFiles root name

end Spiffile
