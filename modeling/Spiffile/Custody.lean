import Spiffile.Runs

/-!
# Where private keys are

A private key is written to one place, the key file of the service it was made
for, and its public part is listed under the ID of that service alone. Both hold
at every state that a run passes through, also where a call stops on the way.
-/

namespace Spiffile

open FileTree

/-! ### One command -/

/-- The path of what the command removes. -/
def Cmd.removed : Cmd → Option PathName
  | .unlink p | .rmdir p | .removeAll p _ => some p
  | _ => none

/-- What a command makes of the tree, also where it is cut short. -/
theorem tree_of_step {supply : ℕ → Point} {c : Cmd} {u t : Disk}
    (hplain : ∀ p, c = .mkdirs p → PlainPath p)
    (ht : t = (Disk.step supply c u).2 ∨ Disk.Torn c u t) :
    t.tree = u.tree ∨ (∃ p, c = .mkdirs p ∧ Volume.Grown u.tree t.tree p) ∨
      (∃ p y q x, c = .write p y ∧ u.tree.resolve p = .ok q ∧ u.tree.Puttable q ∧
        t.tree = u.tree.put q (.file x) ∧ (x = y ∨ ∃ text, x = .text text)) ∨
      ∃ p q n, c.removed = some p ∧ u.tree.stat p = .ok (q, n) ∧ Volume.Shrunk u.tree t.tree q := by
  cases c with
  | present p | read p | chmod p | generateKey =>
    rcases ht with rfl | ht
    · exact Or.inl rfl
    · exact ht.elim
  | mkdirs p =>
    refine Or.inr (Or.inl ⟨p, rfl, ?_⟩)
    rcases ht with rfl | ht
    · exact (Volume.mkdirs_spec (hplain p rfl) u.tree).1
    · exact ht.2
  | unlink p =>
    rcases ht with rfl | ht
    · rcases u.tree.unlink_cases p with ⟨e, he⟩ | ⟨q, x, hstat, he⟩
      · exact Or.inl (congrArg Prod.snd he)
      · exact Or.inr (Or.inr (Or.inr
          ⟨p, q, _, rfl, hstat, Volume.shrunk_of_eq_erase (congrArg Prod.snd he)⟩))
    · exact ht.elim
  | rmdir p =>
    rcases ht with rfl | ht
    · rcases u.tree.rmdir_cases p with ⟨e, he⟩ | ⟨q, hstat, -, -, he⟩
      · exact Or.inl (congrArg Prod.snd he)
      · exact Or.inr (Or.inr (Or.inr
          ⟨p, q, _, rfl, hstat, Volume.shrunk_of_eq_erase (congrArg Prod.snd he)⟩))
    · exact ht.elim
  | removeAll p lenient =>
    rcases ht with rfl | ⟨-, q, n, hstat, hshrunk⟩
    · rcases u.tree.removeAll_cases p lenient with he | ⟨q, n, hstat, he⟩
      · exact Or.inl he
      · exact Or.inr (Or.inr (Or.inr ⟨p, q, n, rfl, hstat, Volume.shrunk_of_eq_erase he⟩))
    · exact Or.inr (Or.inr (Or.inr ⟨p, q, n, rfl, hstat, hshrunk⟩))
  | write p y =>
    rcases ht with rfl | ⟨q, text, hq, hput, rfl⟩
    · rcases u.tree.write_cases p y with ⟨e, he⟩ | ⟨q, hq, hput, he⟩
      · exact Or.inl (congrArg Prod.snd he)
      · exact Or.inr (Or.inr (Or.inl ⟨p, y, q, y, rfl, hq, hput, congrArg Prod.snd he, Or.inl rfl⟩))
    · -- a cut off file holds text
      exact Or.inr (Or.inr (Or.inl ⟨p, y, q, _, rfl, hq, hput, rfl, Or.inr ⟨text, rfl⟩⟩))

/-- A file behind a command was there before, or the command wrote it, perhaps
not to its end. -/
theorem file_of_step {supply : ℕ → Point} {c : Cmd} {u t : Disk}
    (hplain : ∀ p, c = .mkdirs p → PlainPath p)
    (ht : t = (Disk.step supply c u).2 ∨ Disk.Torn c u t) {x : Content} {q : PathName}
    (h : t.tree.get q = some (.file x)) :
    u.tree.get q = some (.file x) ∨
      ∃ p y, c = .write p y ∧ u.tree.resolve p = .ok q ∧ ¬ u.tree.isDir q ∧
        (x = y ∨ ∃ text, x = .text text) := by
  obtain htree | ⟨p, -, hgrown⟩ | ⟨p, y, r, z, hc, hr, hput, htree, hz⟩ | ⟨p, r, n, -, -, hshrunk⟩ :=
    tree_of_step hplain ht
  · rw [htree] at h
    exact Or.inl h
  · exact Or.inl ((hgrown.file_iff q _).mp h)
  · rw [htree, Volume.get_put hput] at h
    split_ifs at h with hq
    · cases h
      rw [hq]
      exact Or.inr ⟨p, y, hc, hr, hput.2.2, hz⟩
    · exact Or.inl h
  · exact Or.inl (hshrunk.of_some h)

/-- What is more than text was written to its end. -/
theorem content_of_step {supply : ℕ → Point} {c : Cmd} {u t : Disk}
    (hplain : ∀ p, c = .mkdirs p → PlainPath p)
    (ht : t = (Disk.step supply c u).2 ∨ Disk.Torn c u t) {x : Content} (hx : ∀ s, x ≠ .text s)
    {q : PathName} (h : t.tree.get q = some (.file x)) :
    u.tree.get q = some (.file x) ∨ ∃ p, c = .write p x ∧ u.tree.resolve p = .ok q := by
  rcases file_of_step hplain ht h with hold | ⟨p, y, rfl, hp, -, rfl | ⟨text, rfl⟩⟩
  · exact Or.inl hold
  · exact Or.inr ⟨p, rfl, hp⟩
  · exact absurd rfl (hx text)

/-- Generated keys are not taken back. -/
theorem generated_le_step {supply : ℕ → Point} {c : Cmd} {u t : Disk}
    (ht : t = (Disk.step supply c u).2 ∨ Disk.Torn c u t) : u.generated ≤ t.generated := by
  rcases ht with rfl | ht
  · cases c with
    | generateKey => exact Nat.le_succ _
    | _ => exact le_refl _
  · cases c with
    | mkdirs p => exact ht.1.ge
    | write p x =>
      obtain ⟨q, text, -, -, rfl⟩ := ht
      exact le_refl _
    | removeAll p lenient => exact ht.1.ge
    | _ => exact ht.elim

/-! ### The invariant -/

section

variable (sha256 : Hash) (supply : ℕ → Point) (root : PathName) (owner : ℕ → String)

/-- A key is listed under the ID of the service it was made for. -/
def OwnId (td id : String) (i : ℕ) : Prop := id = serviceId td (owner i)

/-- A document that lists each key under its owner. -/
def Attributed (d : Json) (n : ℕ) : Prop :=
  ∃ td ids, d = document (.str td) ids ∧ Lists sha256 supply (OwnId owner td) n ids

/-- The bundle lists each key under its owner, and a private key that was not
there at first is in the key file of its owner. -/
structure Custody (first s : Disk) : Prop where
  listed : ∀ d, s.tree.get (bundlePath root) = some (.file (.json d)) →
    Attributed sha256 supply owner d s.generated
  held : ∀ q k, s.tree.get q = some (.file (.key k)) → first.tree.get q = some (.file (.key k)) ∨
    ∃ i < s.generated, k = supply i ∧ q = keyPath root (owner i)

/-- A command that writes documents and private keys as the invariant wants them. -/
structure Proper (c : Cmd) (u : Disk) : Prop where
  plain : ∀ p, c = .mkdirs p → PlainPath p
  document : ∀ p d, c = .write p (.json d) → Attributed sha256 supply owner d u.generated
  key : ∀ p k, c = .write p (.key k) →
    PlainPath p ∧ ∃ i < u.generated, k = supply i ∧ p = keyPath root (owner i)

end

section

variable {sha256 : Hash} {supply : ℕ → Point} {root : PathName} {owner : ℕ → String}

theorem Attributed.mono {d : Json} {n m : ℕ} (h : Attributed sha256 supply owner d n)
    (hnm : n ≤ m) : Attributed sha256 supply owner d m := by
  obtain ⟨td, ids, hd, hl⟩ := h
  exact ⟨td, ids, hd, hl.mono hnm⟩

/-- What a proper command keeps, also where it is cut short. -/
theorem Custody.step {first u t : Disk} (h : Custody sha256 supply root owner first u) {c : Cmd}
    (hc : Proper sha256 supply root owner c u)
    (ht : t = (Disk.step supply c u).2 ∨ Disk.Torn c u t) :
    Custody sha256 supply root owner first t := by
  have hle := generated_le_step ht
  refine ⟨fun d hd => ?_, fun q k hk => ?_⟩
  · rcases content_of_step hc.plain ht (by simp) hd with hold | ⟨p, rfl, -⟩
    · exact (h.listed d hold).mono hle
    · exact (hc.document p d rfl).mono hle
  · rcases content_of_step hc.plain ht (by simp) hk with hold | ⟨p, rfl, hp⟩
    · rcases h.held q k hold with hfirst | ⟨i, hi, hki, hq⟩
      · exact Or.inl hfirst
      · exact Or.inr ⟨i, hi.trans_le hle, hki, hq⟩
    · obtain ⟨hplain, i, hi, hki, hpath⟩ := hc.key p k rfl
      have hq : q = p := Volume.resolve_plain_eq_ok hplain u.tree hp
      exact Or.inr ⟨i, hi.trans_le hle, hki, hq.trans hpath⟩

/-- Keys that are still to come may be given to anybody. -/
theorem Custody.reassign {first s : Disk} (h : Custody sha256 supply root owner first s)
    {owner' : ℕ → String} (heq : ∀ i < s.generated, owner' i = owner i) :
    Custody sha256 supply root owner' first s := by
  refine ⟨fun d hd => ?_, fun q k hk => ?_⟩
  · obtain ⟨td, ids, hdoc, hl⟩ := h.listed d hd
    refine ⟨td, ids, hdoc, fun id keys hlook => ?_⟩
    obtain ⟨is, hkeys, his⟩ := hl id keys hlook
    refine ⟨is, hkeys, fun i hi => ⟨(his i hi).1, ?_⟩⟩
    rw [OwnId, heq i (his i hi).1]
    exact (his i hi).2
  · rcases h.held q k hk with hfirst | ⟨i, hi, hki, hq⟩
    · exact Or.inl hfirst
    · exact Or.inr ⟨i, hi, hki, by rw [heq i hi, hq]⟩

/-! ### Proper commands -/

/-- The command makes no node. -/
def Cmd.makes : Cmd → Bool
  | .mkdirs _ | .write _ _ => true
  | _ => false

theorem proper_of_not_makes {c : Cmd} {u : Disk} (h : c.makes = false) :
    Proper sha256 supply root owner c u where
  plain p hc := by rw [hc] at h; cases h
  document p d hc := by rw [hc] at h; cases h
  key p k hc := by rw [hc] at h; cases h

theorem proper_mkdirs {p : PathName} (hp : PlainPath p) (u : Disk) :
    Proper sha256 supply root owner (.mkdirs p) u where
  plain q hc := by cases hc; exact hp
  document q d hc := by cases hc
  key q k hc := by cases hc

theorem proper_text (p : PathName) (text : String) (u : Disk) :
    Proper sha256 supply root owner (.write p (.text text)) u where
  plain q hc := by cases hc
  document q d hc := by cases hc
  key q k hc := by cases hc

theorem proper_document {d : Json} {u : Disk} (hd : Attributed sha256 supply owner d u.generated)
    (p : PathName) : Proper sha256 supply root owner (.write p (.json d)) u where
  plain q hc := by cases hc
  document q _ hc := by cases hc; exact hd
  key q k hc := by cases hc

theorem proper_key {name : String} (hp : PlainPath (keyPath root name)) {i : ℕ} {u : Disk}
    (hi : i < u.generated) (howner : owner i = name) :
    Proper sha256 supply root owner (.write (keyPath root name) (.key (supply i))) u where
  plain q hc := by cases hc
  document q d hc := by cases hc
  key q k hc := by cases hc; exact ⟨hp, i, hi, rfl, by rw [howner]⟩

/-- One proper command, then the rest. -/
theorem Proper.bind {ε α : Type} {c : Cmd} {u : Disk} (hc : Proper sha256 supply root owner c u)
    {f : Ans c → Prog Cmd Ans ε α} {Post : Except ε α → Disk → Prop}
    (hf : (f (Disk.step supply c u).1).Guarded (Disk.semantics supply)
      (Proper sha256 supply root owner) (Disk.step supply c u).2 Post) :
    (Prog.exec c >>= f).Guarded (Disk.semantics supply) (Proper sha256 supply root owner) u Post :=
  (Prog.guarded_exec_bind c f u Post).mpr ⟨hc, hf⟩

end

/-! ### Each function issues proper commands -/

section

variable {ε τ κ α : Type} {kit : Kit ε τ κ} {sha256 : Hash} {supply : ℕ → Point} {root : PathName}
  {owner : ℕ → String} {u : Disk}

theorem check_proper {β : Type} {raised : Errno → ε} {r : Except Errno β} {f : β → Prog Cmd Ans ε α}
    (hf : ∀ b, (f b).Guarded (Disk.semantics supply) (Proper sha256 supply root owner) u
      fun _ _ => True) :
    (check raised r >>= f).Guarded (Disk.semantics supply) (Proper sha256 supply root owner) u
      fun _ _ => True :=
  Prog.guarded_lift_bind (fun _ => trivial) fun b _ => hf b

theorem then_proper {β : Type} {p : Prog Cmd Ans ε β} {f : β → Prog Cmd Ans ε α}
    (Post : Except ε β → Disk → Prop)
    (hp : p.Guarded (Disk.semantics supply) (Proper sha256 supply root owner) u Post)
    (hf : ∀ b t, Post (.ok b) t → (f b).Guarded (Disk.semantics supply)
      (Proper sha256 supply root owner) t fun _ _ => True) :
    (p >>= f).Guarded (Disk.semantics supply) (Proper sha256 supply root owner) u
      fun _ _ => True :=
  Prog.guarded_then hp hf

/-- Writing the key file generates no key. -/
theorem writeKey_proper {name : String} (hp : PlainPath (keyPath root name)) {i : ℕ}
    (hi : i < u.generated) (howner : owner i = name) :
    (writeKeyWith kit (keyPath root name) (supply i)).Guarded (Disk.semantics supply)
      (Proper sha256 supply root owner) u fun _ t => t.generated = u.generated := by
  unfold writeKeyWith
  refine (proper_key hp hi howner).bind ?_
  refine Prog.guarded_lift_bind (fun _ => rfl) fun _ _ => ?_
  split_ifs
  · exact (proper_of_not_makes (c := .chmod (keyPath root name)) rfl).bind rfl
  · exact rfl

theorem writeBundle_proper {b : Bundle τ} {td : String} {ids : Identities}
    (hd : kit.serialise b = document (.str td) ids)
    (hl : Lists sha256 supply (OwnId owner td) u.generated ids) (p : PathName) :
    (writeBundleWith kit p b).Guarded (Disk.semantics supply) (Proper sha256 supply root owner) u
      fun _ _ => True := by
  rw [writeBundleWith, hd]
  exact (proper_document ⟨td, ids, rfl, hl⟩ p).bind trivial

theorem setKeys_proper {b : Bundle τ} {td : String} {ids : Identities} (hb : ReadFrom kit td ids b)
    (hl : Lists sha256 supply (OwnId owner td) u.generated b.identities) {name : String}
    (is : List ℕ) (his : ∀ i ∈ is, i < u.generated ∧ OwnId owner td (serviceId td name) i) :
    (setKeysWith kit root b (serviceId td name) (is.map (jwkAt sha256 supply))).Guarded
      (Disk.semantics supply) (Proper sha256 supply root owner) u fun _ _ => True :=
  writeBundle_proper (hb.serialise _) (hl.insert (serviceId td name) is his) _

variable (lawful : kit.Lawful sha256) (hroot : PlainPath root)

include lawful hroot

/-- The bundle is a document that lists each key under its owner. -/
theorem readBundle_proper {first : Disk} (h : Custody sha256 supply root owner first u)
    {f : Bundle τ → Prog Cmd Ans ε α}
    (hf : ∀ td ids b, ReadFrom kit td ids b →
      Lists sha256 supply (OwnId owner td) u.generated b.identities →
      (f b).Guarded (Disk.semantics supply) (Proper sha256 supply root owner) u fun _ _ => True) :
    (readBundleWith kit root >>= f).Guarded (Disk.semantics supply)
      (Proper sha256 supply root owner) u fun _ _ => True := by
  rw [readBundleWith, join_bundle lawful hroot]
  refine then_proper
    (fun r t => r = kit.parseBundle (kit.file (u.tree.read (bundlePath root))) ∧ t = u)
    ((proper_of_not_makes (c := .read (bundlePath root)) rfl).bind ⟨rfl, rfl⟩) ?_
  rintro b t ⟨hparse, rfl⟩
  obtain ⟨d, hd⟩ := lawful.parse_ok _ _ hparse.symm
  obtain ⟨td, ids, rfl, hl⟩ := h.listed d
    ((Volume.read_plain_eq_ok (plainPath_bundlePath hroot) _ _).mp hd)
  rw [hd] at hparse
  have hfrom := lawful.readFrom hparse.symm
  exact hf td ids b hfrom (hl.readFrom hfrom)

theorem provision_proper {b : Bundle τ} {td : String} {ids : Identities} (hb : ReadFrom kit td ids b)
    (hl : Lists sha256 supply (OwnId owner td) u.generated b.identities) {name : String}
    (hname : PlainPath (splitSlash name)) {id : SpiffeId} (hid : id.toString = serviceId td name)
    (howner : owner u.generated = name) :
    (provisionWith kit root b id (serviceDir root name)).Guarded (Disk.semantics supply)
      (Proper sha256 supply root owner) u fun _ _ => True := by
  unfold provisionWith
  rw [join_key lawful hroot hname, hid]
  refine (proper_mkdirs (plainPath_serviceDir hroot hname) u).bind ?_
  refine check_proper fun _ => ?_
  refine (proper_of_not_makes (c := .generateKey) rfl).bind ?_
  refine then_proper _ (writeKey_proper (plainPath_keyPath hroot hname) (Nat.lt_succ_self u.generated)
    howner) fun _ t ht => ?_
  have hgen : t.generated = u.generated + 1 := ht
  refine (proper_text _ _ t).bind ?_
  refine check_proper fun _ => ?_
  refine Prog.guarded_lift_bind (fun _ => trivial) fun k hk => ?_
  rw [(jwk_of_generated lawful hk).1]
  refine then_proper _ (setKeys_proper hb (hl.mono ?_) [u.generated] fun i hi => ?_)
    fun _ _ _ => trivial
  · exact hgen.ge.trans' (Nat.le_succ _)
  · rw [List.mem_singleton.mp hi, OwnId, howner]
    exact ⟨hgen.ge.trans_lt' (Nat.lt_succ_self _), rfl⟩

theorem renew_proper {b : Bundle τ} {td : String} {ids : Identities} (hb : ReadFrom kit td ids b)
    (hl : Lists sha256 supply (OwnId owner td) u.generated b.identities) {name : String}
    (hname : PlainPath (splitSlash name)) {id : SpiffeId} (hid : id.toString = serviceId td name)
    (howner : owner u.generated = name) (keepOld : Bool) :
    (renewWith kit root b id (keyPath root name) keepOld).Guarded (Disk.semantics supply)
      (Proper sha256 supply root owner) u fun _ _ => True := by
  unfold renewWith
  refine (proper_of_not_makes (c := .generateKey) rfl).bind ?_
  refine Prog.guarded_lift_bind (fun _ => trivial) fun k hk => ?_
  obtain ⟨hjson, hothers⟩ := jwk_of_generated lawful hk
  -- the old keys are keys of the same service
  have hold : ∃ is : List ℕ, (if keepOld then (b.identities.lookup id.toString).getD [] else []) =
      is.map (jwkAt sha256 supply) ∧
        ∀ i ∈ is, i < u.generated ∧ OwnId owner td (serviceId td name) i := by
    cases keepOld with
    | false => exact ⟨[], rfl, by simp⟩
    | true =>
      cases hlook : b.identities.lookup id.toString with
      | none => exact ⟨[], rfl, by simp⟩
      | some keys =>
        obtain ⟨is, hkeys, his⟩ := hl id.toString keys hlook
        exact ⟨is, hkeys, hid ▸ his⟩
  obtain ⟨is, his, hbound⟩ := hold
  dsimp only
  rw [his, hothers]
  refine Prog.guarded_lift_bind (fun _ => trivial) fun others hok => ?_
  cases hok
  refine then_proper _ (writeKey_proper (plainPath_keyPath hroot hname) (Nat.lt_succ_self u.generated)
    howner) fun _ t ht => ?_
  have hgen : t.generated = u.generated + 1 := ht
  rw [hjson, ← List.map_cons (f := jwkAt sha256 supply), hid]
  refine then_proper _ (setKeys_proper hb (hl.mono ?_) _ fun i hi => ?_) fun _ _ _ => trivial
  · exact hgen.ge.trans' (Nat.le_succ _)
  · rw [hgen]
    rcases List.mem_cons.mp hi with rfl | hi
    · exact ⟨Nat.lt_succ_self _, by rw [OwnId, howner]⟩
    · have hi' := hbound i (List.mem_filter.mp hi).1
      exact ⟨Nat.lt_succ_of_lt hi'.1, hi'.2⟩

/-- All keys from the next one on belong to the service a call is about. -/
def Owns (owner : ℕ → String) (n : ℕ) : Call → Prop
  | .initRoot _ | .removeService _ => True
  | .addService name | .rotateService name _ => ∀ i, n ≤ i → owner i = name

theorem performWith_proper {removeFiles : PathName → Prog Cmd Ans ε Unit}
    (hfiles : ∀ p t, (removeFiles p).Guarded (Disk.semantics supply)
      (Proper sha256 supply root owner) t fun _ _ => True) {first : Disk}
    (h : Custody sha256 supply root owner first u) {call : Call} (hown : Owns owner u.generated call) :
    (performWith kit removeFiles root call).Guarded (Disk.semantics supply)
      (Proper sha256 supply root owner) u fun _ _ => True := by
  cases call with
  | initRoot td =>
    change (initRootWith kit root td).Guarded _ _ _ _
    unfold initRootWith
    rw [join_bundle lawful hroot, join_services lawful hroot]
    refine (proper_of_not_makes (c := .present (bundlePath root)) rfl).bind ?_
    split_ifs
    · trivial
    · refine (proper_mkdirs (hroot.append (plainPath_singleton plain_servicesDirname)) _).bind ?_
      exact check_proper fun _ =>
        writeBundle_proper (lawful.serialise_init td ∅) (Lists.empty _) _
  | addService name =>
    refine then_proper (fun _ _ => True) ?_ fun _ _ _ => trivial
    refine readBundle_proper lawful hroot h fun td ids b hb hl => ?_
    refine Prog.guarded_lift_bind (fun _ => trivial) fun id hid => ?_
    have hparse := (lawful.parseId_ok _ _).mp hid
    rw [hb.text] at hparse
    have hname : PlainPath (splitSlash name) := plain_of_isServiceName ⟨id, hparse⟩
    dsimp only
    rw [join_service lawful hroot hname]
    refine (proper_of_not_makes (c := .present _) rfl).bind ?_
    split_ifs
    · trivial
    · exact provision_proper lawful hroot hb hl hname (toString_of_parse hparse)
        (hown _ (le_refl _))
  | rotateService name keepOld =>
    refine then_proper (fun _ _ => True) ?_ fun _ _ _ => trivial
    refine readBundle_proper lawful hroot h fun td ids b hb hl => ?_
    refine Prog.guarded_lift_bind (fun _ => trivial) fun id hid => ?_
    have hparse := (lawful.parseId_ok _ _).mp hid
    rw [hb.text] at hparse
    have hname : PlainPath (splitSlash name) := plain_of_isServiceName ⟨id, hparse⟩
    dsimp only
    rw [join_service_key lawful hroot hname]
    refine (proper_of_not_makes (c := .present _) rfl).bind ?_
    split_ifs
    · exact renew_proper lawful hroot hb hl hname (toString_of_parse hparse)
        (hown _ (le_refl _)) keepOld
    · trivial
  | removeService name =>
    refine readBundle_proper lawful hroot h fun td ids b hb hl => ?_
    exact then_proper _ (writeBundle_proper (hb.serialise _) (hl.erase _) _) fun _ t _ => hfiles _ t

end

/-! ### The removals, and every call -/

section

variable {rt : Runtime} {supply : ℕ → Point} {root : PathName} {owner : ℕ → String}

theorem unlinkMissingOk_proper (p : PathName) (u : Disk) :
    (Py.unlinkMissingOk p).Guarded (Disk.semantics supply) (Proper rt.sha256 supply root owner) u
      fun _ _ => True := by
  unfold Py.unlinkMissingOk
  refine (proper_of_not_makes (c := .unlink p) rfl).bind ?_
  split
  · trivial
  · trivial
  · trivial

theorem py_removeFiles_proper (p : PathName) (u : Disk) :
    (Py.removeFiles p).Guarded (Disk.semantics supply) (Proper rt.sha256 supply root owner) u
      fun _ _ => True := by
  unfold Py.removeFiles
  refine then_proper _ (unlinkMissingOk_proper _ u) fun _ v _ => ?_
  refine then_proper _ (unlinkMissingOk_proper _ v) fun _ w _ => ?_
  refine (proper_of_not_makes (c := .present p) rfl).bind ?_
  split_ifs
  · exact (proper_of_not_makes (c := .rmdir p) rfl).bind trivial
  · trivial

theorem removeAll_proper {ε : Type} (p : PathName) (lenient : Bool) (raised : Errno → ε) (u : Disk) :
    (do
      let done ← removeAll p lenient
      check raised done : Prog Cmd Ans ε Unit).Guarded (Disk.semantics supply)
        (Proper rt.sha256 supply root owner) u fun _ _ => True :=
  (proper_of_not_makes (c := .removeAll p lenient) rfl).bind trivial

/-- Whatever state a call visits. -/
theorem Custody.visits (hroot : PlainPath root) {impl : Impl} {call : Call} {first s t : Disk}
    (h : Custody rt.sha256 supply root owner first s) (hown : Owns owner s.generated call)
    (hv : impl.Visits rt supply root call s t) :
    Custody rt.sha256 supply root owner first t ∧ s.generated ≤ t.generated := by
  have hstep : ∀ c u t, Custody rt.sha256 supply root owner first u ∧ s.generated ≤ u.generated →
      Proper rt.sha256 supply root owner c u →
      (t = ((Disk.semantics supply).step c u).2 ∨ (Disk.semantics supply).Torn c u t) →
      Custody rt.sha256 supply root owner first t ∧ s.generated ≤ t.generated :=
    fun _ _ _ hu hc ht => ⟨hu.1.step hc ht, hu.2.trans (generated_le_step ht)⟩
  have hstart := And.intro h (le_refl s.generated)
  cases impl with
  | python =>
    rw [Impl.Visits, Py.perform_eq] at hv
    exact (performWith_proper (Py.kit_lawful rt) hroot py_removeFiles_proper h hown).visits hstep
      hstart hv
  | typescript =>
    rw [Impl.Visits, Ts.perform_eq] at hv
    exact (performWith_proper (Ts.kit_lawful rt) hroot
      (fun p u => removeAll_proper p rt.lenient Ts.raised u) h hown).visits hstep hstart hv
  | go =>
    rw [Impl.Visits, Go.perform_eq] at hv
    exact (performWith_proper (Go.kit_lawful rt) hroot
      (fun p u => removeAll_proper p false _ u) h hown).visits hstep hstart hv

/-- The keys made by a call belong to the service it is about. -/
def assign (owner : ℕ → String) (n : ℕ) : Call → ℕ → String
  | .initRoot _, i | .removeService _, i => owner i
  | .addService name, i | .rotateService name _, i => if i < n then owner i else name

theorem owns_assign (owner : ℕ → String) (n : ℕ) (call : Call) : Owns (assign owner n call) n call := by
  cases call with
  | addService name => exact fun i hi => if_neg (not_lt.mpr hi)
  | rotateService name keepOld => exact fun i hi => if_neg (not_lt.mpr hi)
  | _ => trivial

theorem assign_of_lt (owner : ℕ → String) {n i : ℕ} (hi : i < n) (call : Call) :
    assign owner n call i = owner i := by
  cases call with
  | addService name => exact if_pos hi
  | rotateService name keepOld => exact if_pos hi
  | _ => rfl

/-- Every call has an owner for the keys it makes. -/
theorem Custody.call (hroot : PlainPath root) {impl : Impl} {call : Call} {first s t : Disk}
    (h : Custody rt.sha256 supply root owner first s) (hv : impl.Visits rt supply root call s t) :
    Custody rt.sha256 supply root (assign owner s.generated call) first t ∧
      s.generated ≤ t.generated :=
  (h.reassign fun _ hi => assign_of_lt owner hi call).visits hroot (owns_assign owner _ call) hv

theorem Custody.run (hroot : PlainPath root) {first s t : Disk}
    (h : Custody rt.sha256 supply root owner first s) (hrun : Run rt supply root s t) :
    ∃ owner', Custody rt.sha256 supply root owner' first t := by
  refine Prog.invariant_of_calls (I := fun s => ∃ owner, Custody rt.sha256 supply root owner first s)
    (R := fun (c : Impl × Call) s t => c.1.Visits rt supply root c.2 s t) ?_ ⟨owner, h⟩ hrun
  rintro c s t ⟨owner, hs⟩ hv
  exact ⟨_, (hs.call hroot hv).1⟩

end

theorem Custody.fresh {sha256 : Hash} {supply : ℕ → Point} {root : PathName} {s : Disk}
    (owner : ℕ → String) (h : s.tree.get (bundlePath root) = none) :
    Custody sha256 supply root owner s s := by
  refine ⟨fun d hd => ?_, fun q k hk => Or.inl hk⟩
  rw [h] at hd
  cases hd

/-! ### Keys stay with their service -/

/-- A key that a reader binds is one of the supply, and the ID is that of its
owner. -/
theorem Custody.index_of_bindsKey {sha256 : Hash} {supply : ℕ → Point} {root : PathName}
    {owner : ℕ → String} (hroot : PlainPath root) {first s : Disk}
    (h : Custody sha256 supply root owner first s) {id : String} {p : Point} {reader : Impl}
    (hb : reader.BindsKey (bundleFile root s) id p) :
    ∃ td, trustDomainAt root s = some td ∧
      ∃ i < s.generated, supply i = p ∧ id = serviceId td (owner i) := by
  obtain ⟨jwks, ms, hbound, hmem, hx, hy⟩ := hb
  obtain ⟨d, hd⟩ := doc_of_bound hbound
  obtain ⟨td, ids, rfl, hl⟩ := h.listed d (get_of_bundleFile hroot hd)
  have htd := trustDomainAt_document hroot (get_of_bundleFile hroot hd)
  have hsound : Sound sha256 supply root (OwnId owner td) 0 s := by
    refine ⟨Nat.zero_le _, fun d' hd' => ?_⟩
    rw [get_of_bundleFile hroot hd] at hd'
    cases hd'
    exact ⟨td, ids, rfl, hl⟩
  obtain ⟨i, hi, hid, hip⟩ := hsound.index_of_bindsKey hroot ⟨jwks, ms, hbound, hmem, hx, hy⟩
  exact ⟨td, htd, i, hi, hip, hid⟩

/-- Wherever a run stands, a private key that was not on the disk at first lies
in the key file of one service, in that of no other, and whoever reads the bundle
finds its public part under the ID of that service alone. -/
theorem keys_in_custody (rt : Runtime) (supply : ℕ → Point) (root : PathName)
    (hroot : PlainPath root) (s₀ s : Disk) (hfresh : s₀.tree.get (bundlePath root) = none)
    (hrun : Run rt supply root s₀ s) (hsupply : Set.InjOn supply (Set.Iio s.generated))
    (q : PathName) (k : Point) (hk : s.tree.get q = some (.file (.key k)))
    (hnew : ∀ q, s₀.tree.get q ≠ some (.file (.key k))) :
    ∃ name, q = keyPath root name ∧
      (∀ q', s.tree.get q' = some (.file (.key k)) → q' = q) ∧
      ∀ (reader : Impl) (id : String), reader.BindsKey (bundleFile root s) id k →
        ∃ td, trustDomainAt root s = some td ∧ id = serviceId td name := by
  obtain ⟨owner, h⟩ := (Custody.fresh (fun _ => "") hfresh).run hroot hrun
  obtain ⟨i, hi, rfl, hq⟩ := (h.held q k hk).resolve_left (hnew q)
  have hindex : ∀ j < s.generated, supply j = supply i → j = i :=
    fun j hj hji => hsupply (Set.mem_Iio.mpr hj) (Set.mem_Iio.mpr hi) hji
  refine ⟨owner i, hq, fun q' hq' => ?_, fun reader id hb => ?_⟩
  · obtain ⟨j, hj, hji, hpath⟩ := (h.held q' _ hq').resolve_left (hnew q')
    rw [hpath, hindex j hj hji.symm, hq]
  · obtain ⟨td, htd, j, hj, hji, hid⟩ := h.index_of_bindsKey hroot hb
    exact ⟨td, htd, by rw [hid, hindex j hj hji]⟩

theorem keys_in_custody_sample :
    ∃ name, keyPath Sample.root "x" = keyPath Sample.root name ∧
      (∀ q', Sample.registered.tree.get q' = some (.file (.key Sample.basePoint)) →
        q' = keyPath Sample.root "x") ∧
      ∀ (reader : Impl) (id : String),
        reader.BindsKey (bundleFile Sample.root Sample.registered) id Sample.basePoint →
        ∃ td, trustDomainAt Sample.root Sample.registered = some td ∧ id = serviceId td name := by
  have hsupply : Set.InjOn Sample.supply (Set.Iio Sample.registered.generated) :=
    Sample.supply_injOn.mono fun i hi => lt_of_lt_of_le (Set.mem_Iio.mp hi) (by decide)
  refine keys_in_custody Sample.runtime Sample.supply Sample.root Sample.plain_root Sample.emptyDisk
    Sample.registered rfl Sample.run_registered hsupply (keyPath Sample.root "x") Sample.basePoint
    rfl fun q hq => ?_
  have h' := AList.mem_lookup_iff.mp hq
  simp [Sample.emptyDisk, Sample.emptyVolume] at h'

end Spiffile
