import Spiffile.Lib.FileTree
import Spiffile.Lib.Program
import Spiffile.Keys
import Spiffile.Bundle

/-!
# The disk

What the provisioning functions ask of the operating system and of the key
generator. A file holds a JSON document, a private key or other text; bytes,
modes and times are left out. Keys come out of a supply that is counted.
-/

namespace Spiffile

open FileTree

inductive Content where
  | json (d : Json)
  | key (p : Point)
  | text (s : String)

structure Disk where
  tree : Volume Content
  /-- How many keys were generated so far. -/
  generated : ℕ

inductive Cmd where
  | present (p : PathName)
  | read (p : PathName)
  | mkdirs (p : PathName)
  | write (p : PathName) (c : Content)
  | chmod (p : PathName)
  | unlink (p : PathName)
  | rmdir (p : PathName)
  | removeAll (p : PathName) (lenient : Bool)
  | generateKey

@[reducible] def Ans : Cmd → Type
  | .present _ => Bool
  | .read _ => Except Errno Content
  | .generateKey => Point
  | .mkdirs _ | .write _ _ | .chmod _ | .unlink _ | .rmdir _ | .removeAll _ _ => Except Errno Unit

namespace Disk

def withTree (s : Disk) (r : Except Errno Unit × Volume Content) : Except Errno Unit × Disk :=
  (r.1, { s with tree := r.2 })

def step (supply : ℕ → Point) : (c : Cmd) → Disk → Ans c × Disk
  | .present p, s => (s.tree.present p, s)
  | .read p, s => (s.tree.read p, s)
  | .mkdirs p, s => s.withTree (s.tree.mkdirs p)
  | .write p c, s => s.withTree (s.tree.write p c)
  | .chmod p, s =>
    (match s.tree.stat p with
      | .ok _ => .ok ()
      | .error e => .error e, s)
  | .unlink p, s => s.withTree (s.tree.unlink p)
  | .rmdir p, s => s.withTree (s.tree.rmdir p)
  | .removeAll p lenient, s => s.withTree (s.tree.removeAll p lenient)
  | .generateKey, s => (supply s.generated, { s with generated := s.generated + 1 })

/-- What an interrupted command leaves: some of the directories, a file cut
off, some of the nodes. -/
def Torn : Cmd → Disk → Disk → Prop
  | .mkdirs p, s, t => t.generated = s.generated ∧ Volume.Grown s.tree t.tree p
  | .write p _, s, t =>
    ∃ q text, s.tree.resolve p = .ok q ∧ s.tree.Puttable q ∧
      t = { s with tree := s.tree.put q (.file (.text text)) }
  | .removeAll p _, s, t =>
    t.generated = s.generated ∧ ∃ q n, s.tree.stat p = .ok (q, n) ∧ Volume.Shrunk s.tree t.tree q
  | .present _, _, _ | .read _, _, _ | .chmod _, _, _ | .unlink _, _, _ | .rmdir _, _, _
  | .generateKey, _, _ => False

def semantics (supply : ℕ → Point) : Semantics Cmd Ans Disk where
  step := step supply
  Torn := Torn

end Disk

/-! ### Programs on the disk -/

section

variable {ε : Type}

def present (p : PathName) : Prog Cmd Ans ε Bool := Prog.exec (Cmd.present p)
def read (p : PathName) : Prog Cmd Ans ε (Except Errno Content) := Prog.exec (Cmd.read p)
def mkdirs (p : PathName) : Prog Cmd Ans ε (Except Errno Unit) := Prog.exec (Cmd.mkdirs p)
def write (p : PathName) (c : Content) : Prog Cmd Ans ε (Except Errno Unit) := Prog.exec (Cmd.write p c)
def chmod (p : PathName) : Prog Cmd Ans ε (Except Errno Unit) := Prog.exec (Cmd.chmod p)
def unlink (p : PathName) : Prog Cmd Ans ε (Except Errno Unit) := Prog.exec (Cmd.unlink p)
def rmdir (p : PathName) : Prog Cmd Ans ε (Except Errno Unit) := Prog.exec (Cmd.rmdir p)
def generateKey : Prog Cmd Ans ε Point := Prog.exec Cmd.generateKey

def removeAll (p : PathName) (lenient : Bool) : Prog Cmd Ans ε (Except Errno Unit) :=
  Prog.exec (Cmd.removeAll p lenient)

/-- Raises what the system call reported. -/
def check {α : Type} (raised : Errno → ε) (r : Except Errno α) : Prog Cmd Ans ε α :=
  .lift (r.mapError raised)

end

/-! ### Paths -/

def bundleFilename : String := "bundle.json"
def servicesDirname : String := "services"
def idFilename : String := "id"
def keyFilename : String := "key.pem"

/-- The names between the slashes. -/
def splitSlash (path : String) : List String := (path.toList.splitOn '/').map String.ofList

def endsWithSlash (path : String) : Bool := path.toList.getLast? == some '/'

/-- An absolute path without `.` and `..`, by its text alone. -/
def clean (names : List String) : PathName := names.foldl Volume.next []

def pathText (p : PathName) : String := "/" ++ "/".intercalate p

namespace Py

/-- The `/` of `pathlib`: empty names and dots go, `..` stays, and an absolute
path replaces what stands before it. -/
def joinOne (base : PathName) (part : String) : PathName :=
  let names := (splitSlash part).filter fun name => name ≠ "" ∧ name ≠ "."
  if part.toList.head? = some '/' then names else base ++ names

def join (base : PathName) (parts : List String) : PathName := parts.foldl joinOne base

end Py

namespace Ts

/-- `path.join`: empty parts are left out, and a final slash stays. -/
def join (base : PathName) (parts : List String) : PathName :=
  let kept := parts.filter fun part => part ≠ ""
  let path := clean (base ++ kept.flatMap splitSlash)
  match kept.getLast? with
  | some last => if endsWithSlash last then path ++ [""] else path
  | none => path

end Ts

namespace Go

/-- `filepath.Join`. -/
def join (base : PathName) (parts : List String) : PathName := clean (base ++ parts.flatMap splitSlash)

end Go

/-! ### Plain paths are joined alike -/

theorem foldl_next_named (names : List String) (cur : PathName)
    (h : ∀ name ∈ names, name ≠ "" ∧ name ≠ "." ∧ name ≠ "..") :
    names.foldl Volume.next cur = cur ++ names := by
  induction names generalizing cur with
  | nil => rw [List.foldl_nil, List.append_nil]
  | cons name names ih =>
    obtain ⟨hempty, hdot, hdotDot⟩ := h name List.mem_cons_self
    rw [List.foldl_cons, Volume.next, if_neg (not_or.mpr ⟨hempty, hdot⟩), if_neg hdotDot,
      ih _ fun n hn => h n (List.mem_cons_of_mem _ hn), List.append_assoc, List.singleton_append]

theorem foldl_next_plain (names : List String) (cur : PathName) (h : ∀ name ∈ names, Volume.Plain name) :
    names.foldl Volume.next cur = cur ++ names :=
  foldl_next_named names cur fun name hn => ⟨(h name hn).ne_empty, (h name hn).ne_dot, (h name hn).ne_dotDot⟩

/-- What is clean stays as it is. -/
theorem clean_clean (names : List String) : clean (clean names) = clean names := by
  rw [clean, foldl_next_named (clean names) [] fun name hn => ?_, List.nil_append]
  rcases Volume.mem_foldl_next hn with hnil | ⟨-, hne⟩
  · cases hnil
  · exact hne

theorem clean_append (names rest : List String) :
    clean (names ++ rest) = rest.foldl Volume.next (clean names) := List.foldl_append

theorem clean_plain {names : List String} (h : ∀ name ∈ names, Volume.Plain name) :
    clean names = names := by
  rw [clean, foldl_next_plain names [] h, List.nil_append]

theorem splitSlash_injective {a b : String} (h : splitSlash a = splitSlash b) : a = b := by
  have hsplit : a.toList.splitOn '/' = b.toList.splitOn '/' :=
    List.map_injective_iff.mpr (fun _ _ he => String.ofList_inj.mp he) h
  apply String.toList_inj.mp
  calc
    a.toList = ['/'].intercalate (a.toList.splitOn '/') := (List.intercalate_splitOn '/').symm
    _ = ['/'].intercalate (b.toList.splitOn '/') := by rw [hsplit]
    _ = b.toList := List.intercalate_splitOn '/'

theorem splitSlash_ne_nil (s : String) : splitSlash s ≠ [] := by
  simp [splitSlash]

theorem head_ne_slash {part : String} (h : ∀ name ∈ splitSlash part, Volume.Plain name) :
    part.toList.head? ≠ some '/' := by
  intro hhead
  obtain ⟨rest, hrest⟩ := List.head?_eq_some_iff.mp hhead
  have hmem : "" ∈ splitSlash part := by
    rw [splitSlash, hrest, ← List.nil_append ('/' :: rest), List.splitOn_append_cons_self]
    simp
  exact (h "" hmem).ne_empty rfl

theorem endsWithSlash_plain {part : String} (h : ∀ name ∈ splitSlash part, Volume.Plain name) :
    endsWithSlash part = false := by
  rw [endsWithSlash, beq_eq_false_iff_ne]
  intro hlast
  obtain ⟨rest, hrest⟩ := List.getLast?_eq_some_iff.mp hlast
  have hmem : "" ∈ splitSlash part := by
    rw [splitSlash, hrest, List.splitOn_append_cons_self]
    simp
  exact (h "" hmem).ne_empty rfl

section

variable {base : PathName} {parts : List String} (hbase : ∀ name ∈ base, Volume.Plain name)
  (hparts : ∀ part ∈ parts, ∀ name ∈ splitSlash part, Volume.Plain name)

include hparts

theorem py_join_plain : Py.join base parts = base ++ parts.flatMap splitSlash := by
  induction parts generalizing base with
  | nil => simp [Py.join]
  | cons part parts ih =>
    have hpart := hparts part List.mem_cons_self
    have hfilter : (splitSlash part).filter (fun name => name ≠ "" ∧ name ≠ ".") = splitSlash part :=
      List.filter_eq_self.mpr fun name hn => by
        simp [(hpart name hn).ne_empty, (hpart name hn).ne_dot]
    have hone : Py.joinOne base part = base ++ splitSlash part := by
      simp only [Py.joinOne, hfilter, if_neg (head_ne_slash hpart)]
    have hrest : Py.join (base ++ splitSlash part) parts =
        base ++ splitSlash part ++ parts.flatMap splitSlash :=
      ih fun q hq => hparts q (List.mem_cons_of_mem _ hq)
    rw [Py.join] at hrest ⊢
    rw [List.foldl_cons, hone, hrest, List.flatMap_cons, List.append_assoc]

theorem go_join_eq : Go.join base parts = clean base ++ parts.flatMap splitSlash := by
  rw [Go.join, clean_append]
  apply foldl_next_plain
  intro name hname
  obtain ⟨part, hpart, hname⟩ := List.mem_flatMap.mp hname
  exact hparts part hpart name hname

theorem ts_join_eq : Ts.join base parts = Go.join base parts := by
  have hkept : parts.filter (fun part => part ≠ "") = parts :=
    List.filter_eq_self.mpr fun part hp => by
      have hne : part ≠ "" := by
        rintro rfl
        exact (hparts "" hp "" (by simp [splitSlash])).ne_empty rfl
      simp [hne]
  simp only [Ts.join, hkept]
  split
  · next last hlast =>
    rw [endsWithSlash_plain (hparts last (List.mem_of_getLast? hlast)), if_neg Bool.false_ne_true]
    rfl
  · rfl

include hbase

theorem go_join_plain : Go.join base parts = base ++ parts.flatMap splitSlash := by
  rw [go_join_eq hparts, clean_plain hbase]

theorem ts_join_plain : Ts.join base parts = base ++ parts.flatMap splitSlash := by
  rw [ts_join_eq hparts, go_join_plain hbase hparts]

end

/-! ### Service names -/

theorem isSegment_plain {cs : List Char} (h : IsSegment cs) : Volume.Plain (String.ofList cs) := by
  refine ⟨fun he => h.1 ?_, fun he => h.2.1 ?_, fun he => h.2.2.1 ?_, ?_⟩
  · simpa using congrArg String.toList he
  · simpa using congrArg String.toList he
  · simpa using congrArg String.toList he
  · rw [Volume.hasNul, String.toList_ofList]
    simp only [List.contains_eq_mem, decide_eq_false_iff_not]
    exact fun hm => absurd (h.2.2.2 _ hm) (by decide)

/-- `spiffe://<trust_domain>/<name>`. -/
def serviceId (trustDomain name : String) : String := scheme ++ trustDomain ++ "/" ++ name

/-- The name a parser accepts in the trust domain. -/
def IsServiceName (trustDomain name : String) : Prop :=
  ∃ id, Go.parseSpiffeID (serviceId trustDomain name) = .ok id

/-- An accepted ID is cut at its slashes into a trust domain and the segments. -/
theorem splitOn_of_isServiceName {trustDomain name : String} (h : IsServiceName trustDomain name) :
    ∃ n : SpiffeName, Go.parseSpiffeID (serviceId trustDomain name) = .ok n.toId ∧
      trustDomain.toList.splitOn '/' ++ name.toList.splitOn '/' = n.domain :: n.segments := by
  obtain ⟨id, hid⟩ := h
  obtain ⟨n, hn, rfl⟩ := exists_name_of_parse _ _ hid
  have hchars : trustDomain.toList ++ '/' :: name.toList = n.domain ++ n.pathChars := by
    have hl := congrArg String.toList hn
    simp only [serviceId, SpiffeName.render, String.toList_append, String.toList_ofList,
      List.append_assoc, List.append_cancel_left_eq] at hl
    rw [← hl]
    rfl
  have hdomain : '/' ∉ n.domain :=
    fun hm => isTrustDomainChar_ne_slash '/' (n.domain_ok.2 '/' hm) rfl
  have hjoin : n.domain ++ n.pathChars = ['/'].intercalate (n.domain :: n.segments) := by
    by_cases hs : n.segments = []
    · simp [SpiffeName.pathChars, hs]
    · rw [SpiffeName.pathChars, flatMap_slash _ hs]
      cases hc : n.segments with
      | nil => exact absurd hc hs
      | cons s rest => simp [List.intercalate, List.intersperse]
  refine ⟨n, hid, ?_⟩
  rw [← List.splitOn_append_cons_self, hchars, hjoin]
  refine List.splitOn_intercalate '/' (fun l hl => ?_) (List.cons_ne_nil _ _)
  rcases List.mem_cons.mp hl with rfl | hl
  · exact hdomain
  · exact (n.segments_ok l hl).no_slash

/-- Whatever text stands for the trust domain, the parts of an accepted name
are path segments. -/
theorem plain_of_isServiceName {trustDomain name : String} (h : IsServiceName trustDomain name) :
    ∀ part ∈ splitSlash name, Volume.Plain part := by
  obtain ⟨n, -, hsplit⟩ := splitOn_of_isServiceName h
  intro part hpart
  obtain ⟨cs, hcs, rfl⟩ := List.mem_map.mp hpart
  refine isSegment_plain (n.segments_ok cs ?_)
  -- the first part belongs to the trust domain
  cases htd : trustDomain.toList.splitOn '/' with
  | nil => exact absurd htd (List.splitOn_ne_nil '/' _)
  | cons d ds =>
    rw [htd, List.cons_append, List.cons.injEq] at hsplit
    rw [← hsplit.2]
    exact List.mem_append_right _ hcs

/-- A name accepted in a valid trust domain gives an ID of it. -/
theorem inTrustDomain_serviceId {trustDomain name : String} (htd : IsTrustDomain trustDomain.toList)
    (h : IsServiceName trustDomain name) : inTrustDomain trustDomain (serviceId trustDomain name) = true := by
  obtain ⟨n, hparse, hsplit⟩ := splitOn_of_isServiceName h
  have hslash : '/' ∉ trustDomain.toList :=
    fun hm => isTrustDomainChar_ne_slash '/' (htd.2 '/' hm) rfl
  rw [List.splitOn_eq_singleton hslash, List.singleton_append, List.cons.injEq] at hsplit
  simp [inTrustDomain, hparse, SpiffeName.toId, ← hsplit.1]

theorem serviceId_injective (trustDomain : String) : Function.Injective (serviceId trustDomain) := by
  intro a b h
  have hl := congrArg String.toList h
  simp only [serviceId, String.toList_append, List.append_cancel_left_eq] at hl
  exact String.toList_inj.mp hl

theorem splitSlash_append (a b : String) :
    splitSlash (a ++ "/" ++ b) = splitSlash a ++ splitSlash b := by
  have hlist : (a ++ "/" ++ b).toList = a.toList ++ '/' :: b.toList := by simp
  rw [splitSlash, hlist, List.splitOn_append_cons_self, List.map_append]
  rfl

end Spiffile
