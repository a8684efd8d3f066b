import Kerners.Fs.Syscall

/-!
# Resolving paths and their parents (`src/fs/path.rs`)

`resolve` and `resolve_parent` walk a tree of vnodes from a root. The tree is given by its `lookup`, a
function of the vnode and the name, as it is while nothing changes a directory.

`resolve_eq`: resolving is looking up the components one after another.
-/

namespace Kerners.Fs

open Lib

variable {ν : Type} {lookup : ν → Bytes → Except VfsError ν} {root : ν} {p q : Bytes}

def namesOf (path : Bytes) : List Bytes := (path.splitOn slash).filter (· ≠ [])

def lookupAll (lookup : ν → Bytes → Except VfsError ν) : ν → List Bytes → Except VfsError ν
  | x, [] => .ok x
  | x, name :: names =>
    match lookup x name with
    | .error e => .error e
    | .ok y => lookupAll lookup y names

open List

theorem lookupAll_eq (cs : List Bytes) : lookupAll lookup root cs = cs.foldlM lookup root := by
  induction cs generalizing root with
  | nil => rfl
  | cons c cs ih =>
    rw [lookupAll, foldlM_cons]
    cases lookup root c with
    | error e => rfl
    | ok x => exact ih

theorem namesOf_render {cs : List Bytes} (h : ∀ c ∈ cs, Plain c) : namesOf (render cs) = cs := by
  unfold namesOf
  by_cases hcs : cs = []
  · subst hcs
    decide
  · have hall : ∀ c ∈ cs, decide (c ≠ []) = true := fun c hc => decide_eq_true (h c hc).ne_nil
    rw [render_of_ne hcs, splitOn_joined (Plain.sepFree h), filter_cons_of_neg (by simp)]
    exact filter_eq_self.2 hall

theorem resolve_eq (hp : p.head? = some slash) :
    resolve lookup root p = lookupAll lookup root (comps p) := by
  have hplain := comps_plain p
  rw [lookupAll_eq]
  by_cases hroot : p = [slash]
  · subst hroot
    rfl
  · have hne : ¬ (p = [] ∨ p = [slash]) := by
      rintro (rfl | h)
      · simp at hp
      · exact hroot h
    rw [resolve, if_neg hne, normalize_eq hp]
    exact congrArg (foldlM lookup root) (namesOf_render hplain)

theorem lookupAll_concat (cs : List Bytes) (c : Bytes) :
    lookupAll lookup root (cs ++ [c]) = lookupAll lookup root cs >>= fun d => lookup d c := by
  rw [lookupAll_eq, lookupAll_eq, foldlM_append]
  congr 1
  funext d
  rw [foldlM_cons]
  cases lookup d c <;> rfl

/-- **`resolve` and `resolve_parent` agree**: a result of `resolve_parent` is the vnode of `dirname`
of the normalized path, with the name that leads from there to the vnode of the path. -/
theorem resolve_parent_agrees (lookup : ν → Bytes → Except VfsError ν) (root : ν) (p q : Bytes)
    (hq : normalize p = .ok q) :
    resolve lookup root p = lookupAll lookup root (namesOf q) ∧
      (∀ d n, resolveParent lookup root p = .ok (d, n) →
        resolve lookup root p = lookup d n ∧ resolve lookup root (dirname q) = .ok d) ∧
      (∀ e, resolveParent lookup root p = .error e ↔
        (q = [slash] ∧ e = .invalidPath) ∨
          (q ≠ [slash] ∧ lookupAll lookup root (namesOf (dirname q)) = .error e)) ∧
      ∀ p', normalize p' = .ok q → resolve lookup root p' = resolve lookup root p := by
  have absolute : ∀ {p' : Bytes}, normalize p' = .ok q →
      p'.head? = some slash ∧ q = render (comps p') := by
    intro p' h
    by_cases hp : p'.head? = some slash
    · rw [normalize_eq hp] at h
      exact ⟨hp, (Except.ok.inj h).symm⟩
    · rw [normalize_error hp] at h
      cases h
  have hplain := comps_plain p
  obtain ⟨hp, hqr⟩ := absolute hq
  have hwalk : resolve lookup root p = lookupAll lookup root (namesOf q) := by
    rw [resolve_eq hp, hqr, namesOf_render hplain]
  -- the root has no last component, every other path has one
  have hparent : (∀ d n, resolveParent lookup root p = .ok (d, n) →
      resolve lookup root p = lookup d n ∧ resolve lookup root (dirname q) = .ok d) ∧
      ∀ e, resolveParent lookup root p = .error e ↔
        (q = [slash] ∧ e = .invalidPath) ∨
          (q ≠ [slash] ∧ lookupAll lookup root (namesOf (dirname q)) = .error e) := by
    rcases List.eq_nil_or_concat (comps p) with hnil | ⟨cs, c, hcs⟩
    · have hroot : q = [slash] := by rw [hqr, hnil]; rfl
      rw [resolveParent_root hp hnil]
      refine ⟨fun d n h => (by cases h), fun e => ?_⟩
      simp only [hroot, true_and, ne_eq, not_true_eq_false, false_and, or_false, Except.error.injEq]
      exact eq_comm
    · rw [List.concat_eq_append] at hcs
      rw [hcs] at hqr hplain
      have hc : Plain c := hplain c (by simp)
      have hcs' : ∀ d ∈ cs, Plain d := fun d hd => hplain d (List.mem_append_left _ hd)
      have hroot : q ≠ [slash] := fun h => by
        have hnil : cs ++ [c] = [] := render_inj hplain (by simp) (hqr.symm.trans h)
        simp at hnil
      have hdir : dirname q = render cs := by rw [dirname, hqr, split_render cs hc.no_slash]
      rw [hdir, namesOf_render hcs', resolve_render hcs', ← lookupAll_eq, resolve_eq hp, hcs,
        lookupAll_concat, resolveParent_concat hp hcs, ← lookupAll_eq]
      cases lookupAll lookup root cs with
      | error e' =>
        refine ⟨fun d n h => (by cases h), fun e => ?_⟩
        simp [hroot, Except.map]
      | ok d' =>
        refine ⟨fun d n h => ?_, fun e => ?_⟩
        · cases h
          exact ⟨rfl, rfl⟩
        · simp [hroot, Except.map]
  refine ⟨hwalk, hparent.1, hparent.2, fun p' h' => ?_⟩
  obtain ⟨hp', hqr'⟩ := absolute h'
  rw [hwalk, resolve_eq hp', hqr', namesOf_render (comps_plain p')]

theorem resolve_parent_agrees_aa :
    resolve (fun x n => if n = [0x61] then .ok (x + 1) else .error .notFound) 0
      [0x2f, 0x2f, 0x61, 0x2f, 0x2e, 0x2e, 0x2f, 0x61, 0x2f, 0x61] =
      resolve (fun x n => if n = [0x61] then .ok (x + 1) else .error .notFound) 0
        [0x2f, 0x61, 0x2f, 0x61] :=
  (resolve_parent_agrees _ _ [0x2f, 0x61, 0x2f, 0x61] [0x2f, 0x61, 0x2f, 0x61] rfl).2.2.2 _ rfl

end Kerners.Fs
