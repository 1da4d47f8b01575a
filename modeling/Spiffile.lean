import Spiffile.Lib.Base64Url
import Spiffile.Lib.Scan
import Spiffile.Lib.Program
import Spiffile.Lib.FileTree
import Spiffile.Lib.StampCache
import Spiffile.Lib.Units
import Spiffile.Lib.Cells
import Spiffile.Lib.Register
import Spiffile.Lib.FileRegion
import Spiffile.Lib.Extension
import Spiffile.Json
import Spiffile.SpiffeId
import Spiffile.Keys
import Spiffile.Errors
import Spiffile.Bundle
import Spiffile.Reload
import Spiffile.Jwt
import Spiffile.Verify
import Spiffile.VerifySound
import Spiffile.Noninterference
import Spiffile.Candidates
import Spiffile.Exceptions
import Spiffile.Mint
import Spiffile.NativeIds
import Spiffile.Derivation
import Spiffile.BundleParity
import Spiffile.Selection
import Spiffile.Times
import Spiffile.Pinning
import Spiffile.Disk
import Spiffile.Provision
import Spiffile.Kits
import Spiffile.Provisioned
import Spiffile.Outcomes
import Spiffile.Completion
import Spiffile.Runs
import Spiffile.Removal
import Spiffile.Revocation
import Spiffile.Rotation
import Spiffile.Consistency
import Spiffile.Retry
import Spiffile.Replacement
import Spiffile.Continuity
import Spiffile.Framing
import Spiffile.Retention
import Spiffile.Visibility
import Spiffile.Confinement
import Spiffile.Audience
import Spiffile.KeyReload
import Spiffile.Isolation
import Spiffile.Interleaving
import Spiffile.Custody
import Spiffile.Identity
import Spiffile.Deployment
import Spiffile.Authenticity
import Spiffile.Interchange
import Spiffile.Propagation
import Spiffile.KeyModes
import Spiffile.KeyWindow
import Spiffile.Lib.Parsing
import Spiffile.JsonText
import Spiffile.JsonLayout
import Spiffile.JsonQuoting
import Spiffile.BundleText
import Spiffile.TokenText
import Spiffile.LiveIdentity
import Spiffile.Turnover
