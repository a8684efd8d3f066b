import Kerners.Fs.RamFile
import Kerners.Lib.Components

/-!
# Paths (`src/fs/path.rs`)

A `&str` is its bytes; no function here looks inside a character. `normalize` splits a path at the
slashes, drops empty components and `.`, lets `..` take the last component back and writes what is
left with a slash in front of each component, `/` for no component at all.
-/

namespace Kerners.Fs

open Lib List

/-- `'/'`. -/
def slash : UInt8 := 0x2f

/-- `"."`. -/
def dot : Bytes := [0x2e]

/-- `".."`. -/
def dotdot : Bytes := [0x2e, 0x2e]

/-- One turn of the loop in `normalize`. -/
def pushComponent (components : List Bytes) (component : Bytes) : List Bytes :=
  if component = [] ∨ component = dot then components
  else if component = dotdot then components.dropLast
  else components ++ [component]

/-- The components the loop in `normalize` ends with. -/
def comps (path : Bytes) : List Bytes := (path.splitOn slash).foldl pushComponent []

/-- How `normalize` writes its components. -/
def render (components : List Bytes) : Bytes :=
  if components = [] then [slash] else joined slash components

def normalize (path : Bytes) : Except VfsError Bytes :=
  if path = [] then .error .invalidPath
  else if path.head? ≠ some slash then .error .invalidPath
  else .ok (render (comps path))

/-- `path.rfind('/')` and what `split` makes of it: the text before the last slash and the text
after it. -/
def splitLast (path : Bytes) : Option (Bytes × Bytes) :=
  match path.reverse.dropWhile (· ≠ slash) with
  | [] => none
  | _ :: dir => some (dir.reverse, (path.reverse.takeWhile (· ≠ slash)).reverse)

def split (path : Bytes) : Bytes × Bytes :=
  match splitLast path with
  | some (dir, name) => if dir = [] then ([slash], name) else (dir, name)
  | none => (dot, path)

def dirname (path : Bytes) : Bytes := (split path).1

def join (base name : Bytes) : Bytes :=
  if base = [slash] then [slash] ++ name else base ++ [slash] ++ name

/-! ## Components -/

structure Plain (c : Bytes) : Prop where
  ne_nil : c ≠ []
  ne_dot : c ≠ dot
  ne_dotdot : c ≠ dotdot
  no_slash : slash ∉ c

variable {cs : List Bytes} {c path : Bytes}

theorem pushComponent_plain (hcs : ∀ d ∈ cs, Plain d) (hc : slash ∉ c) :
    ∀ d ∈ pushComponent cs c, Plain d := by
  unfold pushComponent
  split
  · exact hcs
  · rename_i h
    rw [not_or] at h
    split
    · exact fun d hd => hcs d (dropLast_subset _ hd)
    · rename_i hdd
      intro d hd
      rcases mem_append.1 hd with hd | hd
      · exact hcs d hd
      · rw [mem_singleton.1 hd]
        exact ⟨h.1, h.2, hdd, hc⟩

theorem comps_plain (path : Bytes) : ∀ c ∈ comps path, Plain c := by
  unfold comps
  have hfree : SepFree slash (path.splitOn slash) := sepFree_splitOn path
  suffices h : ∀ (l acc : List Bytes), SepFree slash l → (∀ c ∈ acc, Plain c) →
      ∀ c ∈ l.foldl pushComponent acc, Plain c from h _ [] hfree (by simp)
  intro l
  induction l with
  | nil => exact fun acc _ hacc => hacc
  | cons x l ih =>
    intro acc hl hacc
    exact ih _ (fun c hc => hl c (mem_cons_of_mem _ hc))
      (pushComponent_plain hacc (hl x mem_cons_self))

theorem pushComponent_of_plain (cs : List Bytes) (hc : Plain c) :
    pushComponent cs c = cs ++ [c] := by
  unfold pushComponent
  rw [if_neg (not_or.2 ⟨hc.ne_nil, hc.ne_dot⟩), if_neg hc.ne_dotdot]

theorem foldl_pushComponent {l : List Bytes} (acc : List Bytes) (h : ∀ c ∈ l, Plain c) :
    l.foldl pushComponent acc = acc ++ l := by
  induction l generalizing acc with
  | nil => simp
  | cons c l ih =>
    rw [foldl_cons, pushComponent_of_plain acc (h c mem_cons_self),
      ih _ fun d hd => h d (mem_cons_of_mem _ hd)]
    simp

theorem Plain.sepFree (h : ∀ c ∈ cs, Plain c) : SepFree slash cs :=
  fun c hc => (h c hc).no_slash

theorem comps_joined (h : ∀ c ∈ cs, Plain c) : comps (joined slash cs) = cs := by
  unfold comps
  rw [splitOn_joined (Plain.sepFree h), foldl_cons]
  simpa [pushComponent] using foldl_pushComponent [] h

theorem comps_render (h : ∀ c ∈ cs, Plain c) : comps (render cs) = cs := by
  unfold render
  split
  · rename_i he
    subst he
    decide
  · exact comps_joined h

theorem render_head (cs : List Bytes) : (render cs).head? = some slash := by
  cases cs <;> simp [render]

theorem normalize_eq (h : path.head? = some slash) :
    normalize path = .ok (render (comps path)) := by
  unfold normalize
  rw [if_neg (by rintro rfl; simp at h), if_neg (not_not.2 h)]

theorem normalize_error (h : path.head? ≠ some slash) : normalize path = .error .invalidPath := by
  unfold normalize
  split
  · rfl
  · rfl

/-- A path that `normalize` returns as it is. -/
def Normalized (path : Bytes) : Prop := normalize path = .ok path

theorem normalize_render (h : ∀ c ∈ cs, Plain c) : normalize (render cs) = .ok (render cs) := by
  rw [normalize_eq (render_head cs), comps_render h]

theorem normalized_iff : Normalized path ↔ ∃ cs, (∀ c ∈ cs, Plain c) ∧ path = render cs := by
  constructor
  · intro h
    have hhead : path.head? = some slash := by
      by_contra hne
      rw [Normalized, normalize_error hne] at h
      simp at h
    refine ⟨comps path, comps_plain path, ?_⟩
    rw [Normalized, normalize_eq hhead] at h
    injection h with h
    exact h.symm
  · rintro ⟨cs, hcs, rfl⟩
    exact normalize_render hcs

theorem Normalized.eq_render (h : Normalized path) : path = render (comps path) := by
  obtain ⟨cs, hcs, rfl⟩ := normalized_iff.1 h
  rw [comps_render hcs]

theorem render_inj {ds : List Bytes} (hcs : ∀ c ∈ cs, Plain c) (hds : ∀ c ∈ ds, Plain c)
    (h : render cs = render ds) : cs = ds := by
  rw [← comps_render hcs, h, comps_render hds]

/-! ## The last component -/

theorem splitLast_append {dir name : Bytes} (h : slash ∉ name) :
    splitLast (dir ++ slash :: name) = some (dir, name) := by
  have hr : (dir ++ slash :: name).reverse = name.reverse ++ slash :: dir.reverse := by simp
  have hname : ∀ x ∈ name.reverse, decide (x ≠ slash) = true := fun x hx =>
    decide_eq_true fun he => h (he ▸ mem_reverse.1 hx)
  unfold splitLast
  rw [hr, takeWhile_append_of_pos hname, dropWhile_append_of_pos hname]
  simp

theorem split_render (cs : List Bytes) (hc : slash ∉ c) :
    split (render (cs ++ [c])) = (render cs, c) := by
  have hr : render (cs ++ [c]) = joined slash cs ++ slash :: c := by
    unfold render
    rw [if_neg (by simp), joined_append]
    simp
  unfold split
  rw [hr, splitLast_append hc]
  simp only [joined_eq_nil, render]
  split <;> rfl

theorem split_root : split (render []) = ([slash], []) := by decide

theorem join_render (hcs : ∀ d ∈ cs, Plain d) : join (render cs) c = render (cs ++ [c]) := by
  have hr : render (cs ++ [c]) = joined slash cs ++ [slash] ++ c := by
    unfold render
    rw [if_neg (by simp), joined_append]
    simp
  unfold join
  by_cases he : cs = []
  · subst he
    have hroot : render [] = [slash] := rfl
    rw [hr, if_pos hroot]
    rfl
  · have hne : render cs ≠ [slash] := fun h => he (render_inj hcs (by simp) (h.trans rfl))
    rw [if_neg hne, hr, render, if_neg he]

/-! ## The canonical form -/

def stackPart (stack : List Bytes) (part : Bytes) : List Bytes :=
  if part = [] ∨ part = dot then stack
  else if part = dotdot then stack.tail
  else part :: stack

def leftOnStack (path : Bytes) : List Bytes := ((path.splitOn slash).foldl stackPart []).reverse

theorem reverse_stackPart (stack : List Bytes) (part : Bytes) :
    (stackPart stack part).reverse = pushComponent stack.reverse part := by
  unfold stackPart pushComponent
  split
  · rfl
  · split
    · rw [dropLast_reverse]
    · rw [reverse_cons]

theorem leftOnStack_eq (path : Bytes) : leftOnStack path = comps path := by
  suffices h : ∀ (parts stack : List Bytes), (parts.foldl stackPart stack).reverse =
      parts.foldl pushComponent stack.reverse from h _ []
  intro parts
  induction parts with
  | nil => exact fun _ => rfl
  | cons part parts ih =>
    intro stack
    rw [foldl_cons, foldl_cons, ih, reverse_stackPart]

theorem render_eq_intercalate (cs : List Bytes) :
    render cs = slash :: List.intercalate [slash] cs := by
  suffices h : ∀ (c : Bytes) (cs : List Bytes),
      joined slash (c :: cs) = slash :: List.intercalate [slash] (c :: cs) by
    cases cs with
    | nil => rfl
    | cons c cs => exact h c cs
  intro c cs
  induction cs generalizing c with
  | nil => simp [List.intercalate]
  | cons d ds ih =>
    rw [joined_cons, ih d]
    simp [List.intercalate]

/-- What a canonical form `q` of the path `p` is. -/
structure Canonical (p q : Bytes) : Prop where
  /-- The components left on the stack, joined with slashes. -/
  eq_stack : q = slash :: List.intercalate [slash] (leftOnStack p)
  plain : q ≠ [slash] → ∀ c ∈ (q.splitOn slash).tail, c ≠ [] ∧ c ≠ dot ∧ c ≠ dotdot
  no_trailing : q ≠ [slash] → q.getLast? ≠ some slash
  idempotent : normalize q = .ok q
  /-- `split` and `join` are inverse to each other, and the directory is canonical. -/
  splits : q ≠ [slash] → (split q).2 ≠ [] ∧ join (split q).1 (split q).2 = q ∧
    normalize (split q).1 = .ok (split q).1

theorem canonical_render (p : Bytes) : Canonical p (render (comps p)) := by
  have hplain := comps_plain p
  have hroot : ∀ {cs : List Bytes}, render cs ≠ [slash] → cs ≠ [] := by
    rintro cs h rfl
    exact h rfl
  refine ⟨by rw [leftOnStack_eq, render_eq_intercalate], fun hne c hc => ?_, fun hne => ?_,
    normalize_render hplain, fun hne => ?_⟩
  · rw [render, if_neg (hroot hne), splitOn_joined (Plain.sepFree hplain)] at hc
    have := hplain c hc
    exact ⟨this.ne_nil, this.ne_dot, this.ne_dotdot⟩
  · obtain ⟨cs, c, heq⟩ := (eq_nil_or_concat (comps p)).resolve_left (hroot hne)
    have hc : Plain c := hplain c (by rw [heq]; simp)
    have hlast : (joined slash (cs ++ [c])).getLast? = c.getLast? := by
      obtain ⟨x, y, hxy⟩ := exists_cons_of_ne_nil hc.ne_nil
      rw [joined_append, hxy]
      simp [getLast?_append, getLast?_cons]
    rw [render, if_neg (hroot hne), heq, concat_eq_append, hlast]
    exact fun h => hc.no_slash (mem_of_getLast? h)
  · obtain ⟨cs, c, heq⟩ := (eq_nil_or_concat (comps p)).resolve_left (hroot hne)
    rw [concat_eq_append] at heq
    rw [heq] at hplain ⊢
    have hc : Plain c := hplain c (by simp)
    have hcs : ∀ d ∈ cs, Plain d := fun d hd => hplain d (mem_append_left _ hd)
    rw [split_render cs hc.no_slash]
    exact ⟨hc.ne_nil, join_render hcs, normalize_render hcs⟩

/-- **Normalization is canonical.** It fails exactly for the empty and the relative paths, and
otherwise returns the canonical form. -/
theorem normalize_canonical (p : Bytes) :
    (normalize p = .error .invalidPath ↔ p = [] ∨ p.head? ≠ some slash) ∧
      (∀ e, normalize p = .error e → e = .invalidPath) ∧
      ∀ q, normalize p = .ok q → Canonical p q := by
  by_cases h : p.head? = some slash
  · rw [normalize_eq h]
    refine ⟨?_, fun e he => by simp at he, fun q hq => ?_⟩
    · have hne : p ≠ [] := by
        rintro rfl
        simp at h
      simp [h, hne]
    · obtain rfl := Except.ok.inj hq
      exact canonical_render p
  · rw [normalize_error h]
    refine ⟨by simp [h], fun e he => ?_, fun q hq => by simp at hq⟩
    exact (Except.error.inj he).symm

/-! ## Resolving -/

/-- `resolve`: the components are looked up one after another. -/
def resolve {ν : Type} (lookup : ν → Bytes → Except VfsError ν) (root : ν) (path : Bytes) :
    Except VfsError ν :=
  if path = [] ∨ path = [slash] then .ok root
  else
    match normalize path with
    | .error e => .error e
    | .ok normalized => ((normalized.splitOn slash).filter (· ≠ [])).foldlM lookup root

/-- `resolve_parent`: the parent, and the last component. -/
def resolveParent {ν : Type} (lookup : ν → Bytes → Except VfsError ν) (root : ν) (path : Bytes) :
    Except VfsError (ν × Bytes) :=
  match normalize path with
  | .error e => .error e
  | .ok normalized =>
    let (parentPath, name) := split normalized
    if name = [] then .error .invalidPath
    else (resolve lookup root parentPath).map fun parent => (parent, name)

end Kerners.Fs
