import Spiffile.Authenticity
import Spiffile.JsonQuoting
import Spiffile.NativeIds
import Spiffile.Pinning

/-!
# The text of a token

`identity.ts` writes and reads the segments of a token by itself: JSON without
spaces, as UTF-8, in base64url. Other modules take this coding for a parameter
of the `Node`; here it is the code's. What `Buffer` makes of texts that nobody
has encoded stays open.
-/

namespace Spiffile

open Base64Url JsonText

/-! ### Bytes of a text -/

/-- `Buffer.from(text)`. -/
def utf8Bytes (text : String) : List Byte := (Units.encode Units.utf8 text.toList).map byte

/-- The text of valid bytes. -/
def utf8Text (bs : List Byte) : String :=
  String.ofList ((Go.runes (bs.map Fin.val)).map Char.ofNat)

theorem val_utf8Bytes (text : String) :
    (utf8Bytes text).map Fin.val = Units.encode Units.utf8 text.toList := by
  have hbyte : ∀ u ∈ Units.encode Units.utf8 text.toList, (Fin.val ∘ byte) u = id u := by
    intro u hu
    obtain ⟨c, -, hc⟩ := List.mem_flatMap.mp hu
    obtain ⟨b, -, rfl⟩ := List.mem_map.mp hc
    exact Nat.mod_eq_of_lt b.toNat_lt
  rw [utf8Bytes, List.map_map, List.map_congr_left hbyte, List.map_id]

theorem utf8Text_utf8Bytes (text : String) : utf8Text (utf8Bytes text) = text := by
  have hchar : ∀ c ∈ text.toList, (Char.ofNat ∘ Char.toNat) c = id c := fun c _ => Char.ofNat_toNat c
  rw [utf8Text, val_utf8Bytes, Go.runes_utf8, List.map_map, List.map_congr_left hchar, List.map_id,
    String.ofList_toList]

theorem decode_b64url (bs : List Byte) : decode (b64url bs).toList = some bs := by
  rw [b64url, String.toList_ofList, decode_encode]

theorem dotless_b64url (bs : List Byte) : '.' ∉ (b64url bs).toList := by
  rw [b64url, String.toList_ofList]
  intro hdot
  have hmem := encode_mem_alphabet bs '.' hdot
  revert hmem
  decide

/-! ### Segments -/

namespace Ts

/-- `Buffer.from(text, "base64url")` and `toString("utf8")`. -/
structure Buffer where
  fromBase64url : String → List Byte
  toText : List Byte → String

/-- What was encoded is decoded. -/
structure Buffer.Documented (buffer : Buffer) : Prop where
  fromBase64url : ∀ bs, buffer.fromBase64url (b64url bs) = bs
  toText : ∀ text, buffer.toText (utf8Bytes text) = text

/-- `JSON.stringify(v)`. -/
def stringify (fraction : ℚ → List Char) (v : Json) : String :=
  String.ofList (render (compact escape fraction) 0 v)

/-- `b64url(JSON.stringify(..))`. -/
def writeSegment (fraction : ℚ → List Char) (ms : Members) : String :=
  b64url (utf8Bytes (stringify fraction (.obj ms)))

/-- `JSON.parse(Buffer.from(text, "base64url").toString("utf8"))`. -/
def parseSegment (buffer : Buffer) (text : String) : Option Json :=
  JsonText.parse (buffer.toText (buffer.fromBase64url text)).toList

/-- The node codes segments as `identity.ts` does, and its signatures are in
base64url. -/
structure Node.Codes (node : Node) (buffer : Buffer) (fraction : ℚ → List Char) : Prop where
  documented : buffer.Documented
  writes : node.writeSegment = Ts.writeSegment fraction
  parses : node.parseSegment = Ts.parseSegment buffer
  signs : ∀ key input, ∃ bs, node.sign key input = b64url bs

theorem parse_stringify (fraction : ℚ → List Char) {v : Json} (hv : JsonText.Whole v) :
    JsonText.parse (stringify fraction v).toList = some v := by
  have hends : Ends [] := fun c hc => by cases hc
  have hread := JsonText.parse_render (compact_lawful ts_quotes fraction) hv hends rfl
  rw [List.append_nil] at hread
  rw [stringify, String.toList_ofList, hread]

end Ts

/-- Strings, and integers that a double holds, each under a name of its own. -/
structure Flat (ms : Members) : Prop where
  names : (ms.map Prod.fst).Nodup
  values : ∀ m ∈ ms, (∃ s, m.2 = .str s) ∨ ∃ n : ℤ, m.2 = .int n ∧ n.natAbs ≤ 2 ^ 53

/-- The reader decodes base64url, UTF-8 and JSON, at least of a flat object. -/
def ReadsSegments (segment : String → Option Json) : Prop :=
  ∀ text ms, JsonText.parse text.toList = some (.obj ms) → Flat ms →
    segment (b64url (utf8Bytes text)) = some (.obj ms)

theorem Flat.whole {ms : Members} (h : Flat ms) : JsonText.Whole (.obj ms) := by
  refine wholeMembers_of_forall fun m hm => ?_
  rcases h.values m hm with ⟨s, hs⟩ | ⟨n, hn, -⟩
  · rw [hs]
    trivial
  · rw [hn]
    trivial

theorem Ts.readsSegments {buffer : Ts.Buffer} (h : buffer.Documented) :
    ReadsSegments (Ts.parseSegment buffer) := by
  intro text ms htext _
  rw [Ts.parseSegment, h.fromBase64url, h.toText, htext]

theorem ReadsSegments.written {segment : String → Option Json} (h : ReadsSegments segment)
    (fraction : ℚ → List Char) {ms : Members} (hms : Flat ms) :
    segment (Ts.writeSegment fraction ms) = some (.obj ms) :=
  h _ ms (Ts.parse_stringify fraction hms.whole) hms

theorem flat_tokenHeader (kid : String) : Flat (Ts.tokenHeader kid) where
  names := by simp [Ts.tokenHeader]
  values m hm := by
    simp only [Ts.tokenHeader, List.mem_cons, List.not_mem_nil, or_false] at hm
    rcases hm with rfl | rfl | rfl
    · exact Or.inl ⟨_, rfl⟩
    · exact Or.inl ⟨_, rfl⟩
    · exact Or.inl ⟨_, rfl⟩

theorem flat_tokenClaims (own audienceId : SpiffeId) {now ttl : ℤ} (hnow : now.natAbs ≤ 2 ^ 53)
    (hexp : (now + ttl).natAbs ≤ 2 ^ 53) : Flat (Ts.tokenClaims own audienceId now ttl) where
  names := by simp [Ts.tokenClaims]
  values m hm := by
    simp only [Ts.tokenClaims, List.mem_cons, List.not_mem_nil, or_false] at hm
    rcases hm with rfl | rfl | rfl | rfl
    · exact Or.inl ⟨_, rfl⟩
    · exact Or.inl ⟨_, rfl⟩
    · exact Or.inr ⟨now, rfl, hnow⟩
    · exact Or.inr ⟨now + ttl, rfl, hexp⟩

/-! ### What is minted arrives -/

theorem ts_keySourceKid (sha256 : Hash) (key : Point) : Ts.keySourceKid sha256 key = key.kid sha256 := by
  simp only [Ts.keySourceKid, Ts.exportJwk, Ts.jwkThumbprint, Point.kid, thumbprintWith,
    canonical_congr Ts.escape Py.escape ts_escape_plain py_escape_plain key]

section

variable {node : Ts.Node} {buffer : Ts.Buffer} {fraction : ℚ → List Char}
  (hcodes : node.Codes buffer fraction)

include hcodes

/-- A minted token has three segments: the header, the claims and a signature. -/
theorem Ts.segments_token {sha256 : Hash} {own : SpiffeId} {key : Point} {time : ℚ}
    {audience token : String} {ttl : ℤ}
    (h : Ts.token node sha256 own key time audience ttl = .ok token) :
    ∃ audienceId p, Ts.parse audience = .ok audienceId ∧
      p = Ts.writeSegment fraction (Ts.tokenClaims own audienceId ⌊time⌋ ttl) ∧
      segments token = [Ts.writeSegment fraction (Ts.tokenHeader (key.kid sha256)), p,
        node.sign key
          (signingInput (Ts.writeSegment fraction (Ts.tokenHeader (key.kid sha256))) p)] := by
  unfold Ts.token at h
  split at h
  · cases h
  · next audienceId haudience =>
    rw [hcodes.writes, ts_keySourceKid] at h
    have htoken := Except.ok.inj h
    refine ⟨audienceId, _, haudience, rfl, ?_⟩
    obtain ⟨bs, hbs⟩ := hcodes.signs key (signingInput
      (Ts.writeSegment fraction (Ts.tokenHeader (key.kid sha256)))
      (Ts.writeSegment fraction (Ts.tokenClaims own audienceId ⌊time⌋ ttl)))
    rw [← htoken, hbs]
    exact Ts.segments_of_dotless (dotless_b64url _) (dotless_b64url _) (dotless_b64url _)

end

section

variable {libs : Libs} {buffer : Ts.Buffer} {fraction : ℚ → List Char}
  (hcodes : libs.node.Codes buffer fraction)

include hcodes

theorem ts_conveys {verifier : Impl} (hreads : ReadsSegments (verifier.segment libs))
    {sender receiver : SpiffeId} {key : Point} {time : ℚ} {ttl : ℤ}
    (hreceiver : Go.parseSpiffeID receiver.toString = .ok receiver) (hnow : ⌊time⌋.natAbs ≤ 2 ^ 53)
    (hexp : (⌊time⌋ + ttl).natAbs ≤ 2 ^ 53)
    (haccepts : ∀ input, verifier.accepted libs key input (libs.node.sign key input)) :
    Impl.typescript.Conveys libs verifier sender receiver key time ttl := by
  intro token htoken
  obtain ⟨audienceId, p, haudience, rfl, hseg⟩ := Ts.segments_token hcodes (toOption_eq_some htoken)
  rw [ts_parse_eq, hreceiver] at haudience
  cases haudience
  exact ⟨_, _, _, Ts.tokenHeader (key.kid libs.sha256), hseg,
    hreads.written fraction (flat_tokenHeader _), fun _ _ h => h,
    hreads.written fraction (flat_tokenClaims sender receiver hnow hexp), haccepts _⟩

end

namespace Sample

/-- `Buffer` on what was encoded. -/
def buffer : Ts.Buffer where
  fromBase64url text := (decode text.toList).getD []
  toText := utf8Text

theorem buffer_documented : buffer.Documented where
  fromBase64url bs := by
    change (decode (b64url bs).toList).getD [] = bs
    rw [decode_b64url, Option.getD_some]
  toText := utf8Text_utf8Bytes

def oneSignature : String := b64url [byte 0]

/-- Libraries that write and read texts, with one signature. -/
def textLibs : Libs where
  py := Py.PyJwt.reference Unit (Ts.parseSegment buffer) (fun _ => .ok ()) (fun _ => true)
    (fun _ _ signature => decide (signature = oneSignature)) (fun _ _ _ _ => "")
  node :=
    { Key := Unit
      parseSegment := Ts.parseSegment buffer
      createPublicKey := fun _ _ _ _ => some ()
      cryptoVerify := fun _ _ signature => some (decide (signature = oneSignature))
      writeSegment := Ts.writeSegment fun _ => []
      sign := fun _ _ => oneSignature }
  go := Go.GoJwt.reference (Ts.parseSegment buffer)
    (fun _ _ signature => decide (signature = oneSignature)) (fun _ _ _ => "")
  table := fun _ => false
  sha256 := baseDigest

theorem textLibs_codes : textLibs.node.Codes buffer fun _ => [] where
  documented := buffer_documented
  writes := by simp only [textLibs]
  parses := by simp only [textLibs]
  signs key input := by
    change ∃ bs, oneSignature = b64url bs
    exact ⟨[byte 0], by rw [oneSignature]⟩

theorem textLibs_reads : ReadsSegments (Impl.python.segment textLibs) := by
  have hread : Impl.python.segment textLibs = Ts.parseSegment buffer := by
    simp only [Impl.segment, textLibs, Py.PyJwt.reference]
  rw [hread]
  exact Ts.readsSegments buffer_documented

theorem textLibs_accepts (input : String) :
    Impl.python.accepted textLibs basePoint input (textLibs.node.sign basePoint input) := by
  intro j _
  have hverifies : decide (oneSignature = oneSignature) = true := decide_eq_true rfl
  exact ⟨(), rfl, rfl, hverifies⟩

theorem base_keyList : KeyList baseDigest basePoint [.obj (basePoint.jwk baseDigest)] where
  own := List.mem_singleton_self _
  p256 jwk hjwk := by
    rw [List.mem_singleton.mp hjwk]
    exact ⟨basePoint, _, rfl, isP256Jwk_jwk baseDigest basePoint⟩
  distinct q j hj hq _ := by
    cases List.mem_singleton.mp hj
    have hown := isP256Jwk_jwk baseDigest basePoint
    have hx : coord q.x = coord basePoint.x := by simpa using hq.x.symm.trans hown.x
    have hy : coord q.y = coord basePoint.y := by simpa using hq.y.symm.trans hown.y
    exact Point.ext_xy (coord_injective q.x_lt basePoint.x_lt hx)
      (coord_injective q.y_lt basePoint.y_lt hy)

end Sample

theorem utf8Bytes_injective : Function.Injective utf8Bytes :=
  Function.LeftInverse.injective utf8Text_utf8Bytes

/-- A segment tells what was written. -/
theorem Ts.writeSegment_injOn (fraction : ℚ → List Char) {ms ms' : Members} (hms : WholeMembers ms)
    (hms' : WholeMembers ms') (h : Ts.writeSegment fraction ms = Ts.writeSegment fraction ms') :
    ms = ms' := by
  have hbytes := congrArg (fun text => decode text.toList) h
  simp only [Ts.writeSegment, decode_b64url, Option.some.injEq] at hbytes
  have hparse := congrArg (fun text => JsonText.parse text.toList) (utf8Bytes_injective hbytes)
  simp only [Ts.parse_stringify fraction (v := .obj ms) hms,
    Ts.parse_stringify fraction (v := .obj ms') hms', Option.some.injEq, Json.obj.injEq] at hparse
  exact hparse

theorem whole_tokenHeader (kid : String) : WholeMembers (Ts.tokenHeader kid) :=
  ⟨trivial, trivial, trivial, trivial⟩

theorem whole_tokenClaims (own audienceId : SpiffeId) (now ttl : ℤ) :
    WholeMembers (Ts.tokenClaims own audienceId now ttl) :=
  ⟨trivial, trivial, trivial, trivial, trivial⟩

end Spiffile
