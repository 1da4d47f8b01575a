import Spiffile.Json
import Spiffile.SpiffeId

/-!
# What the three implementations raise

`errors.py`, `errors.ts` and the errors of the Go package, with the wording of
each message; a placeholder that prints another library's error carries its
text. Exceptions that are not the packages' own stand beside them, because they
can leave the same functions.
-/

namespace Spiffile

namespace Py

/-- The subclasses of `PyJWTError` that the code tells apart. -/
inductive PyJwtClass where
  | invalidSignature
  | pyJwk
  | other
  deriving DecidableEq

structure PyJwtError where
  cls : PyJwtClass
  text : String
  deriving DecidableEq

inductive BundleFault where
  | missingMember
  | unsupportedVersion
  | unreadable
  deriving DecidableEq

def BundleFault.text : BundleFault → String
  | .missingMember => "bundle is missing required member"
  | .unsupportedVersion => "unsupported spiffile_version"
  | .unreadable => "cannot read bundle"

inductive TokenFault where
  | malformed (e : String)
  | noSub
  | audNotString
  | rejected (e : String)
  | noMatch (claimedSub : String) (lastError : Option String)
  deriving DecidableEq

def TokenFault.text : TokenFault → String
  | .malformed e => "malformed token: " ++ e
  | .noSub => "token has no sub claim"
  | .audNotString => "token rejected: aud must be a single string audience"
  | .rejected e => "token rejected: " ++ e
  | .noMatch claimedSub lastError =>
    "signature does not match any key bound to '" ++ claimedSub ++ "'" ++
      match lastError with
      | some e => " (last error: " ++ e ++ ")"
      | none => ""

/-- What PyJWT and `cryptography` raise. -/
inductive LibExn where
  | pyJwt (e : PyJwtError)
  | typeError
  | other (name : String)
  deriving DecidableEq

/-- An exception, by its class. -/
inductive Exn where
  | spiffile (text : String)
  | invalidSpiffeId (fault : IdFault) (value : Json)
  | invalidBundle (fault : BundleFault)
  | unknownIdentity (spiffeId : String)
  | invalidToken (fault : TokenFault)
  | lib (e : LibExn)
  | attributeError
  | osError

end Py

namespace Ts

inductive BundleFault where
  | notObject
  | missingMember
  | unsupportedVersion
  | unreadable
  deriving DecidableEq

def BundleFault.text : BundleFault → String
  | .notObject => "bundle is not an object"
  | .missingMember =>
    "bundle is missing a required member (trust_domain, spiffile_version, identities)"
  | .unsupportedVersion => "unsupported spiffile_version"
  | .unreadable => "cannot read bundle"

inductive TokenFault where
  | segments
  | malformed
  | algorithm (alg : Option Json)
  | noSub
  | audience
  | noExp
  | expired
  | issuedInFuture
  | noMatch (claimedSub : String)

/-- The constant texts; `malformed` is followed by the decoder's error, and
`algorithm` names the refused value in the middle. -/
def TokenFault.text : TokenFault → String
  | .segments => "malformed token: expected three dot-separated segments"
  | .malformed => "malformed token: "
  | .algorithm _ => "token rejected: algorithm is not allowed"
  | .noSub => "token has no sub claim"
  | .audience => "token rejected: audience doesn't match"
  | .noExp => "token rejected: missing exp claim"
  | .expired => "token rejected: expired"
  | .issuedInFuture => "token rejected: issued in the future"
  | .noMatch claimedSub => "signature does not match any key bound to '" ++ claimedSub ++ "'"

/-- An exception, by its class; `systemError` is what `node:fs` throws and
`cryptoError` what `node:crypto` throws. -/
inductive Exn where
  | spiffile (text : String)
  | invalidSpiffeId (e : InvalidSpiffeId)
  | invalidBundle (fault : BundleFault)
  | unknownIdentity (spiffeId : String)
  | invalidToken (fault : TokenFault)
  | typeError
  | syntaxError
  | systemError
  | cryptoError

end Ts

namespace Go

/-- The errors the package returns. -/
inductive Err where
  | notJson
  | missingMember
  | unsupportedVersion (n : ℤ)
  | unknownIdentity (spiffeId : String)
  | malformed (e : String)
  | noSub
  | subNotId (e : InvalidSpiffeId)
  | audNotString
  | noUsableKeys (claimedSub : String)
  | rejected (e : String)
  | noMatch (claimedSub : String) (lastErr : String)
  | invalidId (e : InvalidSpiffeId)
  | invalidAudience (e : InvalidSpiffeId)
  | alreadyInitialized (path : String)
  | unknownService (name : String)
  | os
  | key
  deriving DecidableEq

def Err.text : Err → String
  | .notJson => "bundle is not valid JSON"
  | .missingMember =>
    "bundle is missing a required member (trust_domain, spiffile_version, identities)"
  | .unsupportedVersion n => "unsupported spiffile_version: " ++ toString n
  | .unknownIdentity spiffeId => "identity has no keys in trust bundle: \"" ++ spiffeId ++ "\""
  | .malformed e => "malformed token: " ++ e
  | .noSub => "token has no sub claim"
  | .subNotId e => "token sub is not a SPIFFE ID: " ++ e.fault.text
  | .audNotString => "token rejected: aud must be a single string audience"
  | .noUsableKeys claimedSub => "no usable keys bound to \"" ++ claimedSub ++ "\""
  | .rejected e => "token rejected: " ++ e
  | .noMatch claimedSub lastErr =>
    "signature does not match any key bound to \"" ++ claimedSub ++ "\": " ++ lastErr
  | .invalidId e => e.fault.text
  | .invalidAudience e => "invalid audience: " ++ e.fault.text
  | .alreadyInitialized path => "already initialized: " ++ path
  | .unknownService name => "unknown service \"" ++ name ++ "\""
  | .os => "file system error"
  | .key => "expected an EC P-256 private key"

end Go

end Spiffile
