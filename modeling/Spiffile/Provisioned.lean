import Spiffile.Kits

/-!
# What the provisioning functions do to a root

The paths of a root, what reading its bundle gives, and the invariant of every
call, also one that is interrupted: under each ID the bundle lists derived keys
of the supply, subject to a rule that new keys obey.
-/

namespace Spiffile

open FileTree

def bundlePath (root : PathName) : PathName := root ++ [bundleFilename]
def serviceDir (root : PathName) (name : String) : PathName := root ++ servicesDirname :: splitSlash name
def keyPath (root : PathName) (name : String) : PathName := serviceDir root name ++ [keyFilename]
def idPath (root : PathName) (name : String) : PathName := serviceDir root name ++ [idFilename]

/-- The names of an absolute path as `clean` leaves it. -/
def PlainPath (p : PathName) : Prop := ∀ name ∈ p, Volume.Plain name

theorem plain_bundleFilename : Volume.Plain bundleFilename :=
  ⟨by decide, by decide, by decide, by decide⟩

theorem plain_servicesDirname : Volume.Plain servicesDirname :=
  ⟨by decide, by decide, by decide, by decide⟩

theorem plain_keyFilename : Volume.Plain keyFilename :=
  ⟨by decide, by decide, by decide, by decide⟩

theorem plain_idFilename : Volume.Plain idFilename :=
  ⟨by decide, by decide, by decide, by decide⟩

theorem splitSlash_bundleFilename : splitSlash bundleFilename = [bundleFilename] := by
  rfl

theorem splitSlash_servicesDirname : splitSlash servicesDirname = [servicesDirname] := by
  rfl

theorem splitSlash_keyFilename : splitSlash keyFilename = [keyFilename] := rfl

theorem splitSlash_idFilename : splitSlash idFilename = [idFilename] := rfl

theorem PlainPath.append {p q : PathName} (hp : PlainPath p) (hq : PlainPath q) : PlainPath (p ++ q) :=
  fun name hn => (List.mem_append.mp hn).elim (hp name) (hq name)

theorem plainPath_singleton {name : String} (h : Volume.Plain name) : PlainPath [name] :=
  fun _ hn => List.mem_singleton.mp hn ▸ h

theorem plainPath_bundlePath {root : PathName} (hroot : PlainPath root) : PlainPath (bundlePath root) :=
  hroot.append (plainPath_singleton plain_bundleFilename)

theorem plainPath_serviceDir {root : PathName} (hroot : PlainPath root) {name : String}
    (hname : PlainPath (splitSlash name)) : PlainPath (serviceDir root name) := by
  refine hroot.append fun part hp => ?_
  rcases List.mem_cons.mp hp with rfl | hp
  · exact plain_servicesDirname
  · exact hname part hp

theorem plainPath_keyPath {root : PathName} (hroot : PlainPath root) {name : String}
    (hname : PlainPath (splitSlash name)) : PlainPath (keyPath root name) :=
  (plainPath_serviceDir hroot hname).append (plainPath_singleton plain_keyFilename)

theorem plainPath_idPath {root : PathName} (hroot : PlainPath root) {name : String}
    (hname : PlainPath (splitSlash name)) : PlainPath (idPath root name) :=
  (plainPath_serviceDir hroot hname).append (plainPath_singleton plain_idFilename)

theorem idPath_ne_bundlePath (root : PathName) (name : String) : idPath root name ≠ bundlePath root := by
  intro h
  have hlast := List.append_inj_right' h rfl
  exact absurd hlast (by decide)

theorem serviceDir_injective (root : PathName) : Function.Injective (serviceDir root) := by
  intro a b h
  exact splitSlash_injective (List.cons.inj (List.append_cancel_left h)).2

theorem keyPath_injective (root : PathName) : Function.Injective (keyPath root) :=
  fun _ _ h => serviceDir_injective root (List.append_cancel_right h)

theorem idPath_injective (root : PathName) : Function.Injective (idPath root) :=
  fun _ _ h => serviceDir_injective root (List.append_cancel_right h)

theorem idPath_ne_keyPath (root : PathName) (a b : String) : idPath root a ≠ keyPath root b := by
  intro h
  have hlast := List.append_inj_right' h rfl
  exact absurd hlast (by decide)

theorem keyPath_ne_bundlePath (root : PathName) (name : String) :
    keyPath root name ≠ bundlePath root := by
  intro h
  have hlast := List.append_inj_right' h rfl
  exact absurd hlast (by decide)

section

variable {ε τ κ : Type} {kit : Kit ε τ κ} {sha256 : Hash} (lawful : kit.Lawful sha256)
  {root : PathName} (hroot : PlainPath root)

include lawful

theorem join_one {base : PathName} (hbase : PlainPath base) {part : String} (hpart : Volume.Plain part)
    (hsplit : splitSlash part = [part]) : kit.join base [part] = base ++ [part] := by
  rw [lawful.join_plain base [part] hbase, List.flatMap_singleton, hsplit]
  intro q hq name hn
  rw [List.mem_singleton.mp hq, hsplit] at hn
  exact List.mem_singleton.mp hn ▸ hpart

include hroot

theorem join_bundle : kit.join root [bundleFilename] = bundlePath root :=
  join_one lawful hroot plain_bundleFilename splitSlash_bundleFilename

theorem join_services : kit.join root [servicesDirname] = root ++ [servicesDirname] :=
  join_one lawful hroot plain_servicesDirname splitSlash_servicesDirname

theorem join_service {name : String} (hname : PlainPath (splitSlash name)) :
    kit.join root [servicesDirname, name] = serviceDir root name := by
  rw [lawful.join_plain root _ hroot]
  · simp [splitSlash_servicesDirname, serviceDir]
  · intro part hpart q hq
    rcases List.mem_pair.mp hpart with rfl | rfl
    · rw [splitSlash_servicesDirname] at hq
      exact List.mem_singleton.mp hq ▸ plain_servicesDirname
    · exact hname q hq

theorem join_key {name : String} (hname : PlainPath (splitSlash name)) :
    kit.join (serviceDir root name) [keyFilename] = keyPath root name :=
  join_one lawful (plainPath_serviceDir hroot hname) plain_keyFilename splitSlash_keyFilename

theorem join_id {name : String} (hname : PlainPath (splitSlash name)) :
    kit.join (serviceDir root name) [idFilename] = idPath root name :=
  join_one lawful (plainPath_serviceDir hroot hname) plain_idFilename splitSlash_idFilename

theorem join_service_key {name : String} (hname : PlainPath (splitSlash name)) :
    kit.join root [servicesDirname, name, keyFilename] = keyPath root name := by
  rw [lawful.join_plain root _ hroot]
  · simp [splitSlash_servicesDirname, splitSlash_keyFilename, keyPath, serviceDir]
  · intro part hpart q hq
    simp only [List.mem_cons, List.not_mem_nil, or_false] at hpart
    rcases hpart with rfl | rfl | rfl
    · rw [splitSlash_servicesDirname] at hq
      exact List.mem_singleton.mp hq ▸ plain_servicesDirname
    · exact hname q hq
    · rw [splitSlash_keyFilename] at hq
      exact List.mem_singleton.mp hq ▸ plain_keyFilename

end

/-! ### Reading the bundle -/

/-- A bundle as it is read from a written document. -/
structure ReadFrom {ε τ κ : Type} (kit : Kit ε τ κ) (td : String) (ids : Identities)
    (b : Bundle τ) : Prop where
  text : kit.text b.trustDomain = td
  serialise : ∀ ids', kit.serialise ⟨b.trustDomain, ids'⟩ = document (.str td) ids'
  lookup : ∀ s, b.identities.lookup s = readBack td ids s

theorem Kit.Lawful.readFrom {ε τ κ : Type} {kit : Kit ε τ κ} {sha256 : Hash}
    (lawful : kit.Lawful sha256) {td : String} {ids : Identities} {b : Bundle τ}
    (h : kit.parseBundle (kit.file (.ok (.json (document (.str td) ids)))) = .ok b) :
    ReadFrom kit td ids b := by
  obtain ⟨b', hb', htext, hser, hlookup⟩ := lawful.parse_document td ids
  rw [h] at hb'
  cases hb'
  exact ⟨htext, hser, hlookup⟩

theorem lookup_of_readBack {td s : String} {ids : Identities} {keys : List Json}
    (h : readBack td ids s = some keys) :
    ids.lookup s = some keys ∧ keys ≠ [] ∧ inTrustDomain td s = true := by
  unfold readBack at h
  split_ifs at h with hin
  obtain ⟨hl, hne⟩ := Option.filter_eq_some_iff.mp h
  exact ⟨hl, by simpa using hne, hin⟩

/-! ### Keys of the supply -/

section

variable (sha256 : Hash) (supply : ℕ → Point) (root : PathName) (R : String → ℕ → Prop)

/-- The JWK of the `i`-th key. -/
def jwkAt (i : ℕ) : Json := .obj ((supply i).jwk sha256)

/-- Every list holds keys among the first `n` that the rule allows there. -/
def Lists (n : ℕ) (ids : Identities) : Prop :=
  ∀ id keys, ids.lookup id = some keys →
    ∃ is : List ℕ, keys = is.map (jwkAt sha256 supply) ∧ ∀ i ∈ is, i < n ∧ R id i

/-- The bundle file, where it holds JSON, is a written document with such
lists. -/
structure Sound (c₀ : ℕ) (s : Disk) : Prop where
  counted : c₀ ≤ s.generated
  written : ∀ d, s.tree.get (bundlePath root) = some (.file (.json d)) →
    ∃ td ids, d = document (.str td) ids ∧ Lists sha256 supply R s.generated ids

/-- A command that writes no JSON but such a document. -/
def Harmless (s : Disk) (c : Cmd) : Prop :=
  ∀ p d, c = .write p (.json d) →
    ∃ td ids, d = document (.str td) ids ∧ Lists sha256 supply R s.generated ids

end

section

variable {sha256 : Hash} {supply : ℕ → Point} {root : PathName} {R : String → ℕ → Prop} {c₀ : ℕ}

theorem Lists.mono {n m : ℕ} {ids : Identities} (h : Lists sha256 supply R n ids) (hnm : n ≤ m) :
    Lists sha256 supply R m ids := by
  intro id keys hl
  obtain ⟨is, hkeys, his⟩ := h id keys hl
  exact ⟨is, hkeys, fun i hi => ⟨lt_of_lt_of_le (his i hi).1 hnm, (his i hi).2⟩⟩

theorem Lists.empty (n : ℕ) : Lists sha256 supply R n ∅ := by
  intro id keys hl
  simp at hl

theorem Lists.insert {n : ℕ} {ids : Identities} (h : Lists sha256 supply R n ids) (id : String)
    (is : List ℕ) (his : ∀ i ∈ is, i < n ∧ R id i) :
    Lists sha256 supply R n (ids.insert id (is.map (jwkAt sha256 supply))) := by
  intro id' keys hl
  by_cases hid : id' = id
  · subst hid
    rw [AList.lookup_insert] at hl
    cases hl
    exact ⟨is, rfl, his⟩
  · rw [AList.lookup_insert_ne hid] at hl
    exact h id' keys hl

theorem Lists.erase {n : ℕ} {ids : Identities} (h : Lists sha256 supply R n ids) (id : String) :
    Lists sha256 supply R n (ids.erase id) := by
  intro id' keys hl
  by_cases hid : id' = id
  · subst hid
    rw [AList.lookup_erase] at hl
    cases hl
  · rw [AList.lookup_erase_ne hid] at hl
    exact h id' keys hl

/-- What is read back lists no other keys. -/
theorem Lists.readFrom {ε τ κ : Type} {kit : Kit ε τ κ} {n : ℕ} {td : String} {ids : Identities}
    {b : Bundle τ} (h : Lists sha256 supply R n ids) (hb : ReadFrom kit td ids b) :
    Lists sha256 supply R n b.identities := by
  intro id keys hl
  rw [hb.lookup] at hl
  exact h id keys (lookup_of_readBack hl).1

/-- The new key is the next of the supply, and its JWK goes into a list. -/
theorem jwk_of_generated {ε τ κ : Type} {kit : Kit ε τ κ} (lawful : kit.Lawful sha256) {n : ℕ} {k : κ}
    (hk : kit.publicJwk (supply n) = .ok k) :
    kit.jwkJson k = jwkAt sha256 supply n ∧
      ∀ is : List ℕ, kit.keepOthers k (is.map (jwkAt sha256 supply)) =
        .ok ((is.filter fun i => (supply i).kid sha256 ≠ (supply n).kid sha256).map
          (jwkAt sha256 supply)) := by
  obtain ⟨k', hk', hjson, hothers⟩ := lawful.publicJwk_ok (supply n)
  cases hk.symm.trans hk'
  refine ⟨hjson, fun is => ?_⟩
  have h := hothers (is.map supply)
  rw [List.map_map, List.filter_map, List.map_map] at h
  exact h

/-- A tree whose bundle file is the old one or gone. -/
theorem Sound.of_tree {s t : Disk} (h : Sound sha256 supply root R c₀ s)
    (hgen : t.generated = s.generated)
    (htree : ∀ d, t.tree.get (bundlePath root) = some (.file (.json d)) →
      s.tree.get (bundlePath root) = some (.file (.json d))) : Sound sha256 supply root R c₀ t :=
  ⟨hgen ▸ h.counted, fun d hd => hgen ▸ h.written d (htree d hd)⟩

theorem Sound.grown {s t : Disk} (h : Sound sha256 supply root R c₀ s)
    (hgen : t.generated = s.generated) {p : PathName} (hg : Volume.Grown s.tree t.tree p) :
    Sound sha256 supply root R c₀ t :=
  h.of_tree hgen fun _ hd => (hg.file_iff _ _).mp hd

theorem Sound.shrunk {s t : Disk} (h : Sound sha256 supply root R c₀ s)
    (hgen : t.generated = s.generated) {p : PathName} (hs : Volume.Shrunk s.tree t.tree p) :
    Sound sha256 supply root R c₀ t :=
  h.of_tree hgen fun _ hd => hs.of_some hd

theorem Sound.put {s : Disk} (h : Sound sha256 supply root R c₀ s) {q : PathName}
    (hq : s.tree.Puttable q) {c : Content}
    (hc : ∀ d, c = .json d →
      ∃ td ids, d = document (.str td) ids ∧ Lists sha256 supply R s.generated ids) :
    Sound sha256 supply root R c₀ { s with tree := s.tree.put q (.file c) } := by
  refine ⟨h.counted, fun d hd => ?_⟩
  dsimp only at hd ⊢
  rw [Volume.get_put hq] at hd
  split_ifs at hd
  · cases hd
    exact hc d rfl
  · exact h.written d hd

theorem Sound.mkdirs {s : Disk} (h : Sound sha256 supply root R c₀ s) {p : PathName}
    (hp : PlainPath p) : Sound sha256 supply root R c₀ (Disk.step supply (.mkdirs p) s).2 :=
  h.grown rfl (Volume.mkdirs_spec hp s.tree).1

/-- A harmless command keeps the invariant, also where it is cut short. -/
theorem Sound.step {s : Disk} (h : Sound sha256 supply root R c₀ s) {c : Cmd}
    (hplain : ∀ p, c = .mkdirs p → PlainPath p) (hc : Harmless sha256 supply R s c) :
    Sound sha256 supply root R c₀ (Disk.step supply c s).2 ∧
      ∀ t, Disk.Torn c s t → Sound sha256 supply root R c₀ t := by
  cases c with
  | present p => exact ⟨h, fun _ ht => ht.elim⟩
  | read p => exact ⟨h, fun _ ht => ht.elim⟩
  | chmod p => exact ⟨h, fun _ ht => ht.elim⟩
  | mkdirs p => exact ⟨h.mkdirs (hplain p rfl), fun _ ht => h.grown ht.1 ht.2⟩
  | write p c =>
    constructor
    · change Sound _ _ _ _ _ { s with tree := (s.tree.write p c).2 }
      unfold Volume.write
      split
      · exact h
      · next q hq =>
        split_ifs with hdir
        · exact h
        · exact h.put (Volume.puttable_of_resolve hq hdir) fun d hd => hc p d (by rw [hd])
    · rintro t ⟨q, text, -, hput, rfl⟩
      exact h.put hput fun d hd => by cases hd
  | unlink p =>
    obtain ⟨q, hq⟩ := s.tree.unlink_shrunk p
    exact ⟨h.shrunk rfl hq, fun _ ht => ht.elim⟩
  | rmdir p =>
    obtain ⟨q, hq⟩ := s.tree.rmdir_shrunk p
    exact ⟨h.shrunk rfl hq, fun _ ht => ht.elim⟩
  | removeAll p lenient =>
    obtain ⟨q, hq⟩ := s.tree.removeAll_shrunk p lenient
    exact ⟨h.shrunk rfl hq, fun t ⟨hgen, q, n, _, hs⟩ => h.shrunk hgen hs⟩
  | generateKey =>
    refine ⟨⟨h.counted.trans (Nat.le_succ _), fun d hd => ?_⟩, fun _ ht => ht.elim⟩
    obtain ⟨td, ids, hdoc, hl⟩ := h.written d hd
    exact ⟨td, ids, hdoc, hl.mono (Nat.le_succ _)⟩

/-! ### Every call keeps it -/

section

variable {ε τ κ α : Type} {Post : Except ε α → Disk → Prop}

/-- One harmless command, then the rest. -/
theorem Sound.sat_bind {s : Disk} (h : Sound sha256 supply root R c₀ s) {c : Cmd}
    (hplain : ∀ p, c = .mkdirs p → PlainPath p) (hc : Harmless sha256 supply R s c)
    {f : Ans c → Prog Cmd Ans ε α}
    (hf : (f (Disk.step supply c s).1).Sat (Disk.semantics supply) (Disk.step supply c s).2
      (Sound sha256 supply root R c₀) Post) :
    (Prog.exec c >>= f).Sat (Disk.semantics supply) s (Sound sha256 supply root R c₀) Post :=
  (Prog.sat_exec_bind c f s _ _).mpr ⟨h, (h.step hplain hc).2, hf⟩

theorem sat_check_bind {β : Type} {Mid : Disk → Prop} {raised : Errno → ε} {r : Except Errno β}
    {f : β → Prog Cmd Ans ε α} {s : Disk} (hmid : Mid s) (herr : ∀ e, Post (.error e) s)
    (hf : ∀ b, r = .ok b → (f b).Sat (Disk.semantics supply) s Mid Post) :
    (check raised r >>= f).Sat (Disk.semantics supply) s Mid Post := by
  rw [Prog.sat_bind, check, Prog.sat_lift]
  refine ⟨hmid, ?_⟩
  cases r with
  | ok b => exact hf b rfl
  | error e => exact herr _

theorem sat_lift_bind {β : Type} {Mid : Disk → Prop} {r : Except ε β}
    {f : β → Prog Cmd Ans ε α} {s : Disk} (hmid : Mid s) (herr : ∀ e, Post (.error e) s)
    (hf : ∀ b, r = .ok b → (f b).Sat (Disk.semantics supply) s Mid Post) :
    (Prog.lift r >>= f).Sat (Disk.semantics supply) s Mid Post := by
  rw [Prog.sat_bind, Prog.sat_lift]
  refine ⟨hmid, ?_⟩
  cases r with
  | ok b => exact hf b rfl
  | error e => exact herr e

theorem harmless_of_ne {s : Disk} {c : Cmd} (h : ∀ p d, c ≠ .write p (.json d)) :
    Harmless sha256 supply R s c := fun p d hc => absurd hc (h p d)

end

section

variable {ε τ κ α : Type} {kit : Kit ε τ κ} (hroot : PlainPath root)

theorem Sound.writeKey_sat {Post : Except ε Unit → Disk → Prop} {s : Disk}
    (h : Sound sha256 supply root R c₀ s) (p : PathName) (key : Point)
    (hdone : ∀ r t, Sound sha256 supply root R c₀ t → t.generated = s.generated → Post r t) :
    (writeKeyWith kit p key).Sat (Disk.semantics supply) s (Sound sha256 supply root R c₀) Post := by
  have hstep := h.step (c := .write p (.key key)) (fun _ hc => by cases hc)
    (harmless_of_ne fun _ _ hc => by cases hc)
  refine (Prog.sat_exec_bind _ _ s _ _).mpr ⟨h, hstep.2, ?_⟩
  refine sat_check_bind hstep.1 (fun _ => hdone _ _ hstep.1 rfl) fun _ _ => ?_
  split_ifs
  · refine (Prog.sat_exec_bind _ _ _ _ _).mpr ⟨hstep.1, fun _ ht => ht.elim, ?_⟩
    exact ⟨hstep.1, hdone _ _ hstep.1 rfl⟩
  · exact ⟨hstep.1, hdone _ _ hstep.1 rfl⟩

include hroot

theorem writeBundle_sat {Mid : Disk → Prop} {Post : Except ε Unit → Disk → Prop} {s : Disk}
    {b : Bundle τ} {d : Json} (hd : kit.serialise b = d) (hmid : Mid s)
    (htorn : ∀ t, Disk.Torn (.write (bundlePath root) (.json d)) s t → Mid t)
    (herr : ∀ e, Post (.error e) s)
    (hdone : s.tree.Puttable (bundlePath root) →
      Mid { s with tree := s.tree.put (bundlePath root) (.file (.json d)) } ∧
        Post (.ok ()) { s with tree := s.tree.put (bundlePath root) (.file (.json d)) }) :
    (writeBundleWith kit (bundlePath root) b).Sat (Disk.semantics supply) s Mid Post := by
  rw [writeBundleWith, hd, write, Prog.sat_exec_bind, check, Prog.sat_lift]
  refine ⟨hmid, htorn, ?_⟩
  change Mid { s with tree := (s.tree.write (bundlePath root) (.json d)).2 } ∧
    Post ((s.tree.write (bundlePath root) (.json d)).1.mapError kit.raised)
      { s with tree := (s.tree.write (bundlePath root) (.json d)).2 }
  rcases s.tree.write_plain_cases (plainPath_bundlePath hroot) (.json d) with ⟨e, he⟩ | ⟨hput, hok⟩
  · rw [he]
    exact ⟨hmid, herr _⟩
  · rw [hok]
    exact hdone hput

/-- A written document is harmless, and what is left of it when cut off is
none. -/
theorem Sound.writeBundle_sat {s : Disk} (h : Sound sha256 supply root R c₀ s) {b : Bundle τ}
    {td : String} {ids : Identities} (hd : kit.serialise b = document (.str td) ids)
    (hl : Lists sha256 supply R s.generated ids) :
    (writeBundleWith kit (bundlePath root) b).Sat (Disk.semantics supply) s
      (Sound sha256 supply root R c₀) fun _ _ => True := by
  refine Spiffile.writeBundle_sat hroot hd h ?_ (fun _ => trivial) fun hput => ?_
  · rintro t ⟨q, text, -, hput, rfl⟩
    exact h.put hput fun d hd => by cases hd
  · exact ⟨h.put hput fun d hd => by cases hd; exact ⟨td, ids, rfl, hl⟩, trivial⟩

variable (lawful : kit.Lawful sha256)

include lawful

theorem readBundle_sat {Mid : Disk → Prop} {Post : Except ε α → Disk → Prop} {s : Disk}
    (hmid : Mid s) (herr : ∀ e, Post (.error e) s) {f : Bundle τ → Prog Cmd Ans ε α}
    (hf : ∀ d b, s.tree.get (bundlePath root) = some (.file (.json d)) →
      kit.parseBundle (kit.file (.ok (.json d))) = .ok b →
      (f b).Sat (Disk.semantics supply) s Mid Post) :
    (readBundleWith kit root >>= f).Sat (Disk.semantics supply) s Mid Post := by
  rw [readBundleWith, Prog.sat_bind, read, Prog.sat_exec_bind, Prog.sat_lift,
    join_bundle lawful hroot]
  refine ⟨hmid, fun _ ht => ht.elim, hmid, ?_⟩
  have hstep : (Disk.semantics supply).step (.read (bundlePath root)) s =
      (s.tree.read (bundlePath root), s) := rfl
  rw [hstep]
  split
  · next b hb =>
    obtain ⟨d, hd⟩ := lawful.parse_ok _ _ hb
    rw [hd] at hb
    exact hf d b ((Volume.read_plain_eq_ok (plainPath_bundlePath hroot) _ _).mp hd) hb
  · next e _ => exact herr e

theorem Sound.initRoot_sat {s : Disk} (h : Sound sha256 supply root R c₀ s) (td : String) :
    (initRootWith kit root td).Sat (Disk.semantics supply) s (Sound sha256 supply root R c₀)
      fun _ _ => True := by
  unfold initRootWith
  rw [join_bundle lawful hroot, join_services lawful hroot]
  refine h.sat_bind (fun _ hc => by cases hc) (harmless_of_ne fun _ _ hc => by cases hc) ?_
  split_ifs
  · exact ⟨h, trivial⟩
  · have hp : PlainPath (root ++ [servicesDirname]) :=
      hroot.append (plainPath_singleton plain_servicesDirname)
    have hdirs : Sound sha256 supply root R c₀
        (Disk.step supply (.mkdirs (root ++ [servicesDirname])) s).2 := h.mkdirs hp
    refine h.sat_bind (fun p hc => by cases hc; exact hp)
      (harmless_of_ne fun _ _ hc => by cases hc) ?_
    refine sat_check_bind hdirs (fun _ => trivial) fun _ _ => ?_
    exact hdirs.writeBundle_sat hroot (lawful.serialise_init td ∅) (Lists.empty _)

/-- The rule lets new keys in everywhere. -/
def Admits (R : String → ℕ → Prop) (c₀ : ℕ) : Prop := ∀ id i, c₀ ≤ i → R id i

theorem Sound.setKeys_sat {s : Disk} (h : Sound sha256 supply root R c₀ s) {b : Bundle τ}
    {td : String} {ids : Identities} (hb : ReadFrom kit td ids b)
    (hl : Lists sha256 supply R s.generated ids) (id : String) (is : List ℕ)
    (his : ∀ i ∈ is, i < s.generated ∧ R id i) :
    (setKeysWith kit root b id (is.map (jwkAt sha256 supply))).Sat (Disk.semantics supply) s
      (Sound sha256 supply root R c₀) fun _ _ => True := by
  rw [setKeysWith, join_bundle lawful hroot]
  exact h.writeBundle_sat hroot (hb.serialise _) ((hl.readFrom hb).insert id is his)

theorem Sound.provision_sat {s : Disk} (h : Sound sha256 supply root R c₀ s) (hR : Admits R c₀)
    {b : Bundle τ} {td : String} {ids : Identities} (hb : ReadFrom kit td ids b)
    (hl : Lists sha256 supply R s.generated ids) (id : SpiffeId) {dir : PathName}
    (hdir : PlainPath dir) :
    (provisionWith kit root b id dir).Sat (Disk.semantics supply) s
      (Sound sha256 supply root R c₀) fun _ _ => True := by
  unfold provisionWith
  have h1 : Sound sha256 supply root R c₀ (Disk.step supply (.mkdirs dir) s).2 := h.mkdirs hdir
  refine h.sat_bind (fun p hc => by cases hc; exact hdir)
    (harmless_of_ne fun _ _ hc => by cases hc) ?_
  refine sat_check_bind h1 (fun _ => trivial) fun _ _ => ?_
  have h2 := (h1.step (c := .generateKey) (fun _ hc => by cases hc)
    (harmless_of_ne fun _ _ hc => by cases hc)).1
  refine h1.sat_bind (fun _ hc => by cases hc) (harmless_of_ne fun _ _ hc => by cases hc) ?_
  rw [Prog.sat_bind]
  refine h2.writeKey_sat _ _ fun r t ht hgen => ?_
  cases r with
  | error e => trivial
  | ok _ =>
    have h3 := (ht.step (c := .write (kit.join dir [idFilename]) (.text (id.toString ++ "\n")))
      (fun _ hc => by cases hc) (harmless_of_ne fun _ _ hc => by cases hc)).1
    refine ht.sat_bind (fun _ hc => by cases hc) (harmless_of_ne fun _ _ hc => by cases hc) ?_
    refine sat_check_bind h3 (fun _ => trivial) fun _ _ => ?_
    refine sat_lift_bind h3 (fun _ => trivial) fun k hk => ?_
    rw [Prog.sat_bind, (jwk_of_generated lawful hk).1]
    have hgen' : t.generated = s.generated + 1 := hgen
    refine (h3.setKeys_sat hroot lawful hb (hl.mono ?_) id.toString [s.generated] ?_).mono
      (fun _ hm => hm) ?_
    · exact hgen'.symm ▸ Nat.le_succ _
    · intro i hi
      rw [List.mem_singleton.mp hi]
      exact ⟨hgen'.symm ▸ Nat.lt_succ_self _, hR _ _ h.counted⟩
    · intro r u hu _
      cases r with
      | ok _ => exact ⟨hu, trivial⟩
      | error e => trivial

theorem Sound.addService_sat {s : Disk} (h : Sound sha256 supply root R c₀ s) (hR : Admits R c₀)
    (name : String) :
    (addServiceWith kit root name).Sat (Disk.semantics supply) s (Sound sha256 supply root R c₀)
      fun _ _ => True := by
  unfold addServiceWith
  refine readBundle_sat hroot lawful h (fun _ => trivial) fun d b hget hparse => ?_
  obtain ⟨td, ids, rfl, hl⟩ := h.written d hget
  refine sat_lift_bind h (fun _ => trivial) fun id hid => ?_
  have hname : PlainPath (splitSlash name) :=
    plain_of_isServiceName ⟨id, (lawful.parseId_ok _ _).mp hid⟩
  dsimp only
  rw [join_service lawful hroot hname]
  refine h.sat_bind (fun _ hc => by cases hc) (harmless_of_ne fun _ _ hc => by cases hc) ?_
  split_ifs
  · exact ⟨h, trivial⟩
  · exact h.provision_sat hroot lawful hR (lawful.readFrom hparse) hl id
      (plainPath_serviceDir hroot hname)

theorem Sound.renew_sat {s : Disk} (h : Sound sha256 supply root R c₀ s) (hR : Admits R c₀)
    {b : Bundle τ} {td : String} {ids : Identities} (hb : ReadFrom kit td ids b)
    (hl : Lists sha256 supply R s.generated ids) (id : SpiffeId) (path : PathName) (keepOld : Bool) :
    (renewWith kit root b id path keepOld).Sat (Disk.semantics supply) s
      (Sound sha256 supply root R c₀) fun _ _ => True := by
  unfold renewWith
  have h1 := (h.step (c := .generateKey) (fun _ hc => by cases hc)
    (harmless_of_ne fun _ _ hc => by cases hc)).1
  refine h.sat_bind (fun _ hc => by cases hc) (harmless_of_ne fun _ _ hc => by cases hc) ?_
  refine sat_lift_bind h1 (fun _ => trivial) fun k hk => ?_
  obtain ⟨hjson, hothers⟩ := jwk_of_generated lawful hk
  -- the old keys are keys of the supply
  have hold : ∃ is : List ℕ, (if keepOld then (b.identities.lookup id.toString).getD [] else []) =
      is.map (jwkAt sha256 supply) ∧ ∀ i ∈ is, i < s.generated ∧ R id.toString i := by
    cases keepOld with
    | false => exact ⟨[], rfl, by simp⟩
    | true =>
      cases hlook : b.identities.lookup id.toString with
      | none => exact ⟨[], rfl, by simp⟩
      | some keys =>
        obtain ⟨is, hkeys, his⟩ := hl.readFrom hb id.toString keys hlook
        exact ⟨is, hkeys, his⟩
  obtain ⟨is, his, hbound⟩ := hold
  dsimp only
  rw [his, hothers]
  refine sat_lift_bind h1 (fun _ => trivial) fun others hok => ?_
  cases hok
  rw [Prog.sat_bind]
  refine h1.writeKey_sat _ _ fun r t ht hgen => ?_
  cases r with
  | error e => trivial
  | ok _ =>
    have hgen' : t.generated = s.generated + 1 := hgen
    dsimp only
    rw [Prog.sat_bind, hjson, ← List.map_cons (f := jwkAt sha256 supply)]
    refine (ht.setKeys_sat hroot lawful hb (hl.mono ?_) id.toString _ ?_).mono (fun _ hm => hm) ?_
    · exact hgen'.symm ▸ Nat.le_succ _
    · intro i hi
      rw [hgen']
      rcases List.mem_cons.mp hi with rfl | hi
      · exact ⟨Nat.lt_succ_self _, hR _ _ h.counted⟩
      · have hi' := hbound i (List.mem_filter.mp hi).1
        exact ⟨Nat.lt_succ_of_lt hi'.1, hi'.2⟩
    · intro r u hu _
      cases r with
      | ok _ => exact ⟨hu, trivial⟩
      | error e => trivial

theorem Sound.rotateService_sat {s : Disk} (h : Sound sha256 supply root R c₀ s)
    (hR : Admits R c₀) (name : String) (keepOld : Bool) :
    (rotateServiceWith kit root name keepOld).Sat (Disk.semantics supply) s
      (Sound sha256 supply root R c₀) fun _ _ => True := by
  unfold rotateServiceWith
  refine readBundle_sat hroot lawful h (fun _ => trivial) fun d b hget hparse => ?_
  obtain ⟨td, ids, rfl, hl⟩ := h.written d hget
  refine sat_lift_bind h (fun _ => trivial) fun id _ => ?_
  refine h.sat_bind (fun _ hc => by cases hc) (harmless_of_ne fun _ _ hc => by cases hc) ?_
  split_ifs
  · exact h.renew_sat hroot lawful hR (lawful.readFrom hparse) hl id _ keepOld
  · exact ⟨h, trivial⟩

theorem Sound.removeService_sat {s : Disk} (h : Sound sha256 supply root R c₀ s)
    {removeFiles : PathName → Prog Cmd Ans ε Unit}
    (hfiles : ∀ p t, Sound sha256 supply root R c₀ t →
      (removeFiles p).Sat (Disk.semantics supply) t (Sound sha256 supply root R c₀)
        fun _ _ => True) (name : String) :
    (removeServiceWith kit removeFiles root name).Sat (Disk.semantics supply) s
      (Sound sha256 supply root R c₀) fun _ _ => True := by
  unfold removeServiceWith
  refine readBundle_sat hroot lawful h (fun _ => trivial) fun d b hget hparse => ?_
  obtain ⟨td, ids, rfl, hl⟩ := h.written d hget
  have hb := lawful.readFrom hparse
  rw [Prog.sat_bind, join_bundle lawful hroot]
  refine (h.writeBundle_sat hroot (hb.serialise _) ((hl.readFrom hb).erase _)).mono
    (fun _ hm => hm) ?_
  intro r t ht _
  cases r with
  | ok _ => exact hfiles _ t ht
  | error e => trivial

end

/-! ### The removals -/

theorem py_removeFiles_sat (p : PathName) (s : Disk) (h : Sound sha256 supply root R c₀ s) :
    (Py.removeFiles p).Sat (Disk.semantics supply) s (Sound sha256 supply root R c₀)
      fun _ _ => True := by
  have hunlink : ∀ (q : PathName) (t : Disk), Sound sha256 supply root R c₀ t →
      (Py.unlinkMissingOk q).Sat (Disk.semantics supply) t (Sound sha256 supply root R c₀)
        fun _ _ => True := by
    intro q t ht
    unfold Py.unlinkMissingOk
    refine ht.sat_bind (fun _ hc => by cases hc) (harmless_of_ne fun _ _ hc => by cases hc) ?_
    have ht' := (ht.step (c := .unlink q) (fun _ hc => by cases hc)
      (harmless_of_ne fun _ _ hc => by cases hc)).1
    split
    · exact ⟨ht', trivial⟩
    · exact ⟨ht', trivial⟩
    · exact ⟨ht', trivial⟩
  unfold Py.removeFiles
  rw [Prog.sat_bind]
  refine (hunlink _ s h).mono (fun _ hm => hm) fun r t ht _ => ?_
  cases r with
  | error e => trivial
  | ok _ =>
    dsimp only
    rw [Prog.sat_bind]
    refine (hunlink _ t ht).mono (fun _ hm => hm) fun r u hu _ => ?_
    cases r with
    | error e => trivial
    | ok _ =>
      refine hu.sat_bind (fun _ hc => by cases hc) (harmless_of_ne fun _ _ hc => by cases hc) ?_
      split_ifs
      · have hu' := (hu.step (c := .rmdir p) (fun _ hc => by cases hc)
          (harmless_of_ne fun _ _ hc => by cases hc)).1
        refine hu.sat_bind (fun _ hc => by cases hc) (harmless_of_ne fun _ _ hc => by cases hc) ?_
        exact ⟨hu', trivial⟩
      · exact ⟨hu, trivial⟩

/-- One recursive removal. -/
theorem removeAll_sat {ε : Type} (p : PathName) (lenient : Bool) (raised : Errno → ε) (s : Disk)
    (h : Sound sha256 supply root R c₀ s) :
    (do
      let done ← removeAll p lenient
      check raised done : Prog Cmd Ans ε Unit).Sat (Disk.semantics supply) s
        (Sound sha256 supply root R c₀) fun _ _ => True := by
  refine h.sat_bind (fun _ hc => by cases hc) (harmless_of_ne fun _ _ hc => by cases hc) ?_
  exact ⟨(h.step (c := .removeAll p lenient) (fun _ hc => by cases hc)
    (harmless_of_ne fun _ _ hc => by cases hc)).1, trivial⟩

end

end Spiffile
