import Spiffile.Deployment
import Spiffile.Isolation
import Spiffile.Noninterference

/-!
# Roots that cannot be told apart

The table of the services says all about a root that anybody can see of it: the
files of each service, and what any verifier makes of any token. So it does not
matter which of the three implementations made an update, nor in which order the
updates of different services came.
-/

namespace Spiffile

open FileTree Cells

/-! ### Documents that read alike -/

section

variable {td : String} {ids ids' : Identities}
  (h : ∀ id, readBack td ids id = readBack td ids' id)

include h

theorem Py.verify_congr_document (lib : PyJwt) (self : SpiffeId) (now : ℚ) (token : String)
    (audience : Option String) (leeway : ℚ) :
    verify lib self (.doc (document (.str td) ids)) now token audience leeway =
      verify lib self (.doc (document (.str td) ids')) now token audience leeway := by
  obtain ⟨b, hb, -, hl⟩ := py_fromDict_document td ids
  obtain ⟨b', hb', -, hl'⟩ := py_fromDict_document td ids'
  have hagree : ∀ id, AgreeOn id (readBundle (.doc (document (.str td) ids)))
      (readBundle (.doc (document (.str td) ids'))) :=
    fun id => Or.inr ⟨b, b', hb, hb', by rw [hl, hl', h]⟩
  unfold verify
  refine bind_congr_ok fun _ _ => bind_congr_ok fun _ _ => bind_congr_ok fun _ _ => ?_
  refine bind_congr_ok fun id _ => bind_congr_ok fun _ _ => ?_
  exact (hagree id.toString).bind_congr _ fun b₁ b₂ hlook => by rw [keysFor_congr hlook]

theorem Ts.verify_congr_document (node : Node) (self : SpiffeId) (now : ℚ) (token : String)
    (audience : Option String) (leeway : ℚ) :
    verify node self (.doc (document (.str td) ids)) now token audience leeway =
      verify node self (.doc (document (.str td) ids')) now token audience leeway := by
  obtain ⟨b, hb, -, hl⟩ := ts_fromDocument_document td ids
  obtain ⟨b', hb', -, hl'⟩ := ts_fromDocument_document td ids'
  have hagree : ∀ id, AgreeOn id (sourceGet (.doc (document (.str td) ids)))
      (sourceGet (.doc (document (.str td) ids'))) :=
    fun id => Or.inr ⟨b, b', hb, hb', by rw [hl, hl', h]⟩
  unfold verify
  split
  · refine bind_congr_ok fun _ _ => bind_congr_ok fun _ _ => ?_
    unfold verifyParsed
    refine bind_congr_ok fun _ _ => bind_congr_ok fun _ _ => bind_congr_ok fun _ _ => ?_
    refine bind_congr_ok fun _ _ => bind_congr_ok fun id _ => ?_
    refine bind_congr_ok fun _ _ => bind_congr_ok fun _ _ => bind_congr_ok fun _ _ => ?_
    refine bind_congr_ok fun _ _ => bind_congr_ok fun _ _ => bind_congr_ok fun _ _ => ?_
    exact (hagree id.toString).bind_congr _ fun b₁ b₂ hlook => by rw [keysFor_congr hlook]
  · rfl

theorem Go.verify_congr_document (lib : GoJwt) (self : SpiffeId) (now : ℚ) (token audience : String)
    (leeway : ℚ) :
    verify lib self (.doc (document (.str td) ids)) now token audience leeway =
      verify lib self (.doc (document (.str td) ids')) now token audience leeway := by
  obtain ⟨b, ws, hb, -, hl⟩ := go_parseBundle_document td ids
  obtain ⟨b', ws', hb', -, hl'⟩ := go_parseBundle_document td ids'
  have hagree : ∀ id, AgreeOn id (readBundle (.doc (document (.str td) ids)))
      (readBundle (.doc (document (.str td) ids'))) := by
    intro id
    refine Or.inr ⟨b, b', ?_, ?_, by rw [hl, hl', h]⟩
    · rw [readBundle, hb]
      rfl
    · rw [readBundle, hb']
      rfl
  unfold verify
  refine bind_congr_ok fun _ _ => bind_congr_ok fun _ _ => bind_congr_ok fun id _ => ?_
  refine bind_congr_ok fun _ _ => ?_
  exact (hagree id.toString).bind_congr _ fun b₁ b₂ hlook => by rw [keysFor_congr hlook]

/-- No verifier tells two documents apart that have the same lists. -/
theorem Impl.verifyFor_congr_document (libs : Libs) (own : SpiffeId) (now : ℚ) (token : String)
    (audience : Option String) (leeway : ℚ) (verifier : Impl) :
    verifier.verifyFor libs own (.doc (document (.str td) ids)) now token audience leeway =
      verifier.verifyFor libs own (.doc (document (.str td) ids')) now token audience leeway := by
  cases verifier with
  | python => exact congrArg Except.toOption (Py.verify_congr_document h libs.py own now token ..)
  | typescript =>
    exact congrArg Except.toOption (Ts.verify_congr_document h libs.node own now token ..)
  | go => exact congrArg Except.toOption (Go.verify_congr_document h libs.go own now token ..)

end

/-! ### The table and nothing else -/

section

variable {rt : Runtime} {root : PathName} (hroot : PlainPath root) {td : String}
  {T : String → Option Service} {s t : Disk}

/-- No list is found but under the ID of a service. -/
def OnlyServices (root : PathName) (td : String) (s : Disk) : Prop :=
  ∀ id, (∀ name, IsServiceName td name → id ≠ serviceId td name) →
    ∀ reader : Impl, reader.bound (bundleFile root s) id = none

theorem Update.call_on (name : String) (update : Update) : (update.call name).On name := by
  cases update <;> rfl

include hroot

/-- A call lists its own service at most. -/
theorem OnlyServices.step {e : Event} (hs : Stands rt.sha256 root td T s)
    (ht : ∃ ids, t.tree.get (bundlePath root) = some (.file (.json (document (.str td) ids))))
    (honly : OnlyServices root td s) (h : e.Served rt root td s t) : OnlyServices root td t := by
  obtain ⟨ids, hdoc, -⟩ := hs
  obtain ⟨ids', hdoc'⟩ := ht
  intro id hid reader
  have hdomain := Impl.domain_document td ids e.impl
  have hframed := (h.ran.framed hroot hdoc hdomain h.name_ok (e.update.call_on e.name)).2 id
    (hid e.name h.name_ok)
  have hbefore := honly id hid e.impl
  rw [bundleFile_of_get hroot hdoc] at hbefore
  rw [hbefore, bundleFile_of_get hroot hdoc', bound_document] at hframed
  rw [bundleFile_of_get hroot hdoc', bound_document, hframed]

theorem follows_table (htd : IsTrustDomain td.toList) {es : List Event}
    (hs : Stands rt.sha256 root td T s) (honly : OnlyServices root td s)
    (hrun : Trace (Event.Apart rt root td) es s t) :
    Stands rt.sha256 root td
        (after Event.name (fun e => e.update.apply rt.sha256 e.key) es T) t ∧
      OnlyServices root td t := by
  have hstep : ∀ T e s t, (Stands rt.sha256 root td T s ∧ OnlyServices root td s) →
      e.Apart rt root td s t →
      Stands rt.sha256 root td (tableStep rt.sha256 e T) t ∧ OnlyServices root td t := by
    intro T e s t hs h
    have ht := (hs.1.step hroot htd h).2
    obtain ⟨ids, hdoc, -⟩ := id ht
    exact ⟨ht, hs.2.step hroot hs.1 ⟨ids, hdoc⟩ h.toServed⟩
  exact hrun.follows hstep ⟨hs, honly⟩

end

/-- A root after `init`. -/
theorem Impl.Returns.onlyServices {rt : Runtime} {supply : ℕ → Point} {root : PathName}
    (hroot : PlainPath root) {td : String} {s t : Disk} {impl : Impl}
    (hret : impl.Returns rt supply root (.initRoot td) s t) : OnlyServices root td t := by
  refine hret.performed fun kit removeFiles lawful h => ?_
  obtain ⟨u, -, hnodes⟩ := (initRoot_returns hroot lawful h).nodes
  have hdoc : t.tree.get (bundlePath root) = some (.file (.json (document (.str td) ∅))) := by
    rw [hnodes, if_pos rfl, lawful.serialise_init]
  intro id _ reader
  rw [bundleFile_of_get hroot hdoc, bound_document]
  simp [readBack]

/-- What an update asks for, whoever makes it. -/
def Event.request (e : Event) : Update × Point := (e.update, e.key)

theorem foldl_requests (sha256 : Hash) (es : List Event) (v : Option Service) :
    es.foldl (fun v e => e.update.apply sha256 e.key v) v =
      (es.map Event.request).foldl (fun v r => r.1.apply sha256 r.2 v) v := by
  rw [List.foldl_map]
  rfl

end Spiffile
