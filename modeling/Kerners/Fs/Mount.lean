import Mathlib.Data.List.Sort
import Kerners.Fs.Path
import Kerners.Lib.Machine

/-!
# The mount table (`src/fs/mod.rs`)

`MOUNT_TABLE` is a list of paths with the filesystem mounted there. `find_mount` takes the first
entry that covers a path; `mount` keeps the list sorted by decreasing length of the path,
`set_root_fs` appends `/`, `unmount` removes an entry. A filesystem is a value of an arbitrary type
`φ`; whether `FileSystem::unmount` succeeds is an argument of `unmount`.
-/

namespace Kerners.Fs

open Lib List

structure MountPoint (φ : Type) where
  path : Bytes
  fs : φ
  deriving DecidableEq

/-- `ROOT_FS` and `MOUNT_TABLE`. -/
structure Vfs (φ : Type) where
  rootFs : Option φ
  mounts : List (MountPoint φ)

/-- The order `mount` sorts by: `b.path.len().cmp(&a.path.len())`. -/
def LongerFirst {φ : Type} (a b : MountPoint φ) : Prop := b.path.length ≤ a.path.length

instance {φ : Type} : DecidableRel (LongerFirst (φ := φ)) := fun a b =>
  inferInstanceAs (Decidable (b.path.length ≤ a.path.length))

/-- The test of `find_mount`: the path is the mount path or lies below it. -/
def covers (path mountPath : Bytes) : Bool :=
  path == mountPath || (mountPath ++ [slash]).isPrefixOf path || mountPath == [slash]

/-- The path `find_mount` returns, relative to the mount. -/
def relativeTo (path mountPath : Bytes) : Bytes :=
  if mountPath = [slash] then path
  else if path = mountPath then [slash]
  else path.drop mountPath.length

namespace Vfs

variable {φ : Type} (v : Vfs φ)

/-- Before `set_root_fs`. -/
def empty : Vfs φ := ⟨none, []⟩

def setRootFs (fs : φ) : Vfs φ := ⟨some fs, v.mounts ++ [⟨[slash], fs⟩]⟩

def mount (path : Bytes) (fs : φ) : Except VfsError (Vfs φ) :=
  if path = [] ∨ path.head? ≠ some slash then .error .invalidPath
  else if v.mounts.any (·.path == path) = true then .error .alreadyExists
  else .ok { v with mounts := List.insertionSort LongerFirst (v.mounts ++ [⟨path, fs⟩]) }

/-- `unmount`, with the result of `FileSystem::unmount`. -/
def unmount (path : Bytes) (fsUnmount : φ → Except VfsError Unit) : Except VfsError (Vfs φ) :=
  match v.mounts.find? (·.path == path) with
  | none => .error .notMountPoint
  | some m =>
    if path = [slash] then .error .fileBusy
    else
      match fsUnmount m.fs with
      | .error e => .error e
      | .ok () => .ok { v with mounts := v.mounts.eraseP (·.path == path) }

def findMount (path : Bytes) : Option (φ × Bytes) :=
  (v.mounts.find? fun m => covers path m.path).map fun m => (m.fs, relativeTo path m.path)

end Vfs

/-- The calls that change the table. `set_root_fs` is called once, with nothing mounted at `/`, and
mount paths are normalized. -/
inductive MountStep {φ : Type} : Vfs φ → Vfs φ → Prop
  | setRootFs (v : Vfs φ) (fs : φ) :
      v.rootFs = none → (∀ m ∈ v.mounts, m.path ≠ [slash]) → MountStep v (v.setRootFs fs)
  | mount (v v' : Vfs φ) (path : Bytes) (fs : φ) :
      Normalized path → v.mount path fs = .ok v' → MountStep v v'
  | unmount (v v' : Vfs φ) (path : Bytes) (fsUnmount : φ → Except VfsError Unit) :
      Normalized path → v.unmount path fsUnmount = .ok v' → MountStep v v'

/-! ## Covering -/

variable {cs : List Bytes} {m : Bytes}

theorem render_of_ne (h : cs ≠ []) : render cs = joined slash cs := if_neg h

theorem length_render_lt (ds : List Bytes) {es : List Bytes} (hes : ∀ c ∈ es, Plain c) (h : es ≠ []) :
    (render ds).length < (render (ds ++ es)).length := by
  have hne : ds ++ es ≠ [] := by simp [h]
  rw [render_of_ne hne]
  by_cases hd : ds = []
  · subst hd
    cases es with
    | nil => exact absurd rfl h
    | cons e es =>
      have he := length_pos_iff.2 (hes e mem_cons_self).ne_nil
      simp only [render, if_true, nil_append, joined_cons, length_cons, length_append, length_nil]
      omega
  · rw [render_of_ne hd]
    exact length_joined_lt h

theorem covers_render {ds : List Bytes} (hd : ∀ c ∈ ds, Plain c) (hc : ∀ c ∈ cs, Plain c) :
    covers (render cs) (render ds) = true ↔ ds <+: cs := by
  unfold covers
  simp only [Bool.or_eq_true, beq_iff_eq, isPrefixOf_iff_prefix]
  constructor
  · rintro ((h | h) | h)
    · obtain rfl := render_inj hc hd h
      exact prefix_rfl
    · by_cases hds : ds = []
      · rw [hds]
        exact nil_prefix
      · obtain ⟨t, ht⟩ := h
        have hcs : cs ≠ [] := by
          rintro rfl
          rw [render_of_ne hds] at ht
          have := congrArg List.length ht
          have hpos := length_pos_iff.2 (mt joined_eq_nil.1 hds : joined slash ds ≠ [])
          simp [render] at this
          omega
        rw [render_of_ne hds, render_of_ne hcs, append_assoc] at ht
        obtain ⟨es, rfl, -⟩ := joined_append_eq (Plain.sepFree hd) (Plain.sepFree hc)
          (.inr ⟨t, rfl⟩) ht
        exact prefix_append ds es
    · have : ds = [] := render_inj hd (by simp) (h.trans rfl)
      rw [this]
      exact nil_prefix
  · rintro ⟨es, rfl⟩
    by_cases hds : ds = []
    · subst hds
      exact .inr rfl
    · cases es with
      | nil => exact .inl (.inl (by rw [append_nil]))
      | cons e es =>
        refine .inl (.inr ⟨e ++ joined slash es, ?_⟩)
        rw [render_of_ne hds, render_of_ne (by simp), joined_append, joined_cons]
        simp

theorem covers_iff {p : Bytes} (hp : Normalized p) (hm : Normalized m) :
    covers p m = true ↔ comps m <+: comps p := by
  have := covers_render (comps_plain m) (comps_plain p)
  rwa [← hp.eq_render, ← hm.eq_render] at this

theorem covers_normalized (hc : ∀ c ∈ cs, Plain c) (hm : m.head? = some slash) (hroot : m ≠ [slash])
    (h : covers (render cs) m = true) : ∃ ds, ds ≠ [] ∧ ds <+: cs ∧ m = render ds := by
  unfold covers at h
  simp only [Bool.or_eq_true, beq_iff_eq, isPrefixOf_iff_prefix, hroot, or_false] at h
  rcases h with h | ⟨t, ht⟩
  · refine ⟨cs, ?_, prefix_rfl, h.symm⟩
    rintro rfl
    exact hroot h.symm
  · have hmne : m ≠ [] := by
      rintro rfl
      simp at hm
    have hcs : cs ≠ [] := by
      rintro rfl
      have hlen := congrArg List.length ht
      have hpos := length_pos_iff.2 hmne
      simp [render] at hlen
      omega
    rw [render_of_ne hcs, append_assoc] at ht
    obtain ⟨ds, es, rfl, rfl, -⟩ := joined_eq_append_sep (Plain.sepFree hc) ht
    have hds : ds ≠ [] := mt joined_eq_nil.2 hmne
    exact ⟨ds, hds, prefix_append ds es, (render_of_ne hds).symm⟩

theorem relativeTo_eq {p : Bytes} (hp : Normalized p) (hm : Normalized m)
    (h : comps m <+: comps p) : relativeTo p m = render ((comps p).drop (comps m).length) := by
  obtain ⟨es, hes⟩ := h
  have hpr : p = render (comps m ++ es) := hes ▸ hp.eq_render
  have hdrop : (comps p).drop (comps m).length = es := by rw [← hes, drop_left]
  rw [hdrop]
  unfold relativeTo
  split
  · rename_i hroot
    have : comps m = [] := by rw [hroot]; decide
    rw [hpr, this, nil_append]
  · rename_i hroot
    have hne : comps m ≠ [] := fun he => hroot (by rw [hm.eq_render, he]; rfl)
    split
    · rename_i heq
      have : comps m ++ [] = comps m ++ es := by rw [append_nil, hes, heq]
      rw [← append_cancel_left this]
      rfl
    · rename_i hpm
      have hes' : es ≠ [] := by
        rintro rfl
        exact hpm (by rw [hpr, append_nil, ← hm.eq_render])
      have hlen : m.length = (joined slash (comps m)).length := by
        conv_lhs => rw [hm.eq_render, render_of_ne hne]
      rw [hpr, hlen, render_of_ne (by simp [hne]), joined_append, drop_left,
        render_of_ne hes']

/-! ## The table -/

section

variable {φ : Type} {v : Vfs φ} {p path : Bytes} {v' : Vfs φ} {fs : φ}

structure TableInv (v : Vfs φ) : Prop where
  sorted : v.mounts.Pairwise LongerFirst
  nodup : (v.mounts.map (·.path)).Nodup
  normalized : ∀ m ∈ v.mounts, Normalized m.path

theorem normalized_root : Normalized [slash] := normalized_iff.2 ⟨[], by simp, rfl⟩

theorem Normalized.length_pos (h : Normalized p) : 1 ≤ p.length := by
  have hhead := render_head (comps p)
  rw [← h.eq_render] at hhead
  cases p with
  | nil => simp at hhead
  | cons x p => simp

theorem TableInv.setRootFs (hi : TableInv v) (fs : φ) (h : ∀ m ∈ v.mounts, m.path ≠ [slash]) :
    TableInv (v.setRootFs fs) := by
  refine ⟨?_, ?_, ?_⟩
  · refine pairwise_append.2 ⟨hi.sorted, pairwise_singleton _ _, ?_⟩
    intro a ha b hb
    rw [mem_singleton.1 hb]
    exact (hi.normalized a ha).length_pos
  · have : (v.setRootFs fs).mounts.map (·.path) = v.mounts.map (·.path) ++ [[slash]] := by
      simp [Vfs.setRootFs]
    rw [this]
    refine nodup_append.2 ⟨hi.nodup, nodup_singleton _, ?_⟩
    intro p hp q hq
    obtain ⟨m, hm, rfl⟩ := mem_map.1 hp
    rw [mem_singleton.1 hq]
    exact h m hm
  · intro m hm
    rcases mem_append.1 hm with hm | hm
    · exact hi.normalized m hm
    · rw [mem_singleton.1 hm]
      exact normalized_root

theorem mount_ok (h : v.mount path fs = .ok v') :
    path.head? = some slash ∧ (∀ m ∈ v.mounts, m.path ≠ path) ∧
      v' = { v with mounts := List.insertionSort LongerFirst (v.mounts ++ [⟨path, fs⟩]) } := by
  unfold Vfs.mount at h
  split at h
  · simp at h
  · rename_i hpath
    split at h
    · simp at h
    · rename_i hany
      injection h with h
      refine ⟨not_not.1 (not_or.1 hpath).2, fun m hm he => hany ?_, h.symm⟩
      exact any_eq_true.2 ⟨m, hm, by simp [he]⟩

theorem unmount_ok {f : φ → Except VfsError Unit} (h : v.unmount path f = .ok v') :
    path ≠ [slash] ∧ v' = { v with mounts := v.mounts.eraseP (·.path == path) } := by
  unfold Vfs.unmount at h
  split at h
  · simp at h
  · split at h
    · simp at h
    · rename_i hp
      split at h
      · simp at h
      · injection h with h
        exact ⟨hp, h.symm⟩

instance : Std.Total (LongerFirst (φ := φ)) := ⟨fun a b => Nat.le_total b.path.length a.path.length⟩

instance : IsTrans (MountPoint φ) LongerFirst :=
  ⟨fun _ _ _ hab hbc => Nat.le_trans hbc hab⟩

theorem TableInv.mount (hi : TableInv v) (hn : Normalized path) (h : v.mount path fs = .ok v') :
    TableInv v' := by
  obtain ⟨-, hfresh, rfl⟩ := mount_ok h
  have hperm := perm_insertionSort LongerFirst (v.mounts ++ [⟨path, fs⟩])
  refine ⟨pairwise_insertionSort .., ?_, ?_⟩
  · refine (hperm.map (·.path)).nodup_iff.2 ?_
    rw [map_append]
    refine nodup_append.2 ⟨hi.nodup, nodup_singleton _, ?_⟩
    intro p hp q hq
    obtain ⟨m, hm, rfl⟩ := mem_map.1 hp
    rw [mem_singleton.1 hq]
    exact hfresh m hm
  · intro m hm
    rcases mem_append.1 (hperm.mem_iff.1 hm) with hm | hm
    · exact hi.normalized m hm
    · rw [mem_singleton.1 hm]
      exact hn

theorem TableInv.unmount {f : φ → Except VfsError Unit} (hi : TableInv v)
    (h : v.unmount path f = .ok v') : TableInv v' := by
  obtain ⟨-, rfl⟩ := unmount_ok h
  have hsub : (v.mounts.eraseP (·.path == path)).Sublist v.mounts := eraseP_sublist
  exact ⟨hi.sorted.sublist hsub, hi.nodup.sublist (hsub.map _),
    fun m hm => hi.normalized m (hsub.subset hm)⟩

theorem TableInv.step {v' : Vfs φ} (hi : TableInv v) (h : MountStep v v') : TableInv v' := by
  cases h with
  | setRootFs fs hnone hfree => exact hi.setRootFs fs hfree
  | mount _ path fs hn hok => exact hi.mount hn hok
  | unmount _ path f hn hok => exact hi.unmount hok

theorem TableInv.empty : TableInv (Vfs.empty : Vfs φ) := ⟨.nil, .nil, by simp [Vfs.empty]⟩

/-! ## Results -/

theorem findMount_none (hi : TableInv v) (hp : Normalized p) :
    v.findMount p = none ↔ ∀ m ∈ v.mounts, ¬ comps m.path <+: comps p := by
  unfold Vfs.findMount
  rw [Option.map_eq_none_iff, find?_eq_none]
  exact forall₂_congr fun m hm => by rw [covers_iff hp (hi.normalized m hm)]

theorem findMount_some (hi : TableInv v) {rel : Bytes} (hp : Normalized p)
    (h : v.findMount p = some (fs, rel)) :
    ∃ m ∈ v.mounts, m.fs = fs ∧
      comps m.path <+: comps p ∧
      (∀ m' ∈ v.mounts,
        comps m'.path <+: comps p → (comps m'.path).length ≤ (comps m.path).length) ∧
      rel = render ((comps p).drop (comps m.path).length) := by
  obtain ⟨m, hfind, hm⟩ := Option.map_eq_some_iff.1 h
  obtain ⟨rfl, rfl⟩ := Prod.mk.inj hm
  obtain ⟨hcov, before, after, hsplit, hbefore⟩ := find?_eq_some_iff_append.1 hfind
  have hmem : m ∈ v.mounts := mem_of_find?_eq_some hfind
  have hpre := (covers_iff hp (hi.normalized m hmem)).1 hcov
  refine ⟨m, hmem, rfl, hpre, ?_, relativeTo_eq hp (hi.normalized m hmem) hpre⟩
  intro m' hm' hpre'
  -- An earlier entry does not cover the path, a later one has a path that is not longer.
  have hlen : m'.path.length ≤ m.path.length := by
    have hm'' := hm'
    rw [hsplit] at hm''
    rcases mem_append.1 hm'' with hb | hb
    · have hno := hbefore m' hb
      rw [(covers_iff hp (hi.normalized m' hm')).2 hpre'] at hno
      simp at hno
    · rcases mem_cons.1 hb with rfl | ha
      · exact Nat.le_refl _
      · have hs := hi.sorted
        rw [hsplit] at hs
        exact (pairwise_cons.1 (pairwise_append.1 hs).2.1).1 m' ha
  rcases prefix_or_prefix_of_prefix hpre hpre' with hle | hle
  · obtain ⟨es, hes⟩ := hle
    by_cases hnil : es = []
    · rw [← hes, hnil, append_nil]
    · have hplain : ∀ c ∈ es, Plain c := fun c hc =>
        comps_plain m'.path c (hes ▸ mem_append_right _ hc)
      have hlt := length_render_lt (comps m.path) hplain hnil
      rw [hes, ← (hi.normalized m hmem).eq_render, ← (hi.normalized m' hm').eq_render] at hlt
      omega
  · exact hle.length_le

/-- **`find_mount` picks the longest mount that covers a path**, in every table that the calls can
build. -/
theorem find_mount_longest (v : Vfs φ) (h : Reach MountStep Vfs.empty v) :
    v.mounts.Pairwise LongerFirst ∧ (v.mounts.map (·.path)).Nodup ∧
      ∀ p, Normalized p →
        (v.findMount p = none ↔ ∀ m ∈ v.mounts, ¬ comps m.path <+: comps p) ∧
        ∀ fs rel, v.findMount p = some (fs, rel) →
          ∃ m ∈ v.mounts, m.fs = fs ∧ comps m.path <+: comps p ∧
            (∀ m' ∈ v.mounts, comps m'.path <+: comps p →
              (comps m'.path).length ≤ (comps m.path).length) ∧
            rel = render ((comps p).drop (comps m.path).length) := by
  have hi : TableInv v := Reach.invariant TableInv.empty TableInv.step h
  exact ⟨hi.sorted, hi.nodup, fun p hp =>
    ⟨findMount_none hi hp, fun fs rel hfind => findMount_some hi hp hfind⟩⟩

end

theorem find_mount_longest_mnt2 : ∃ v : Vfs Nat, Reach MountStep Vfs.empty v ∧
    v.findMount [0x2f, 0x6d, 0x6e, 0x74, 0x32] = some (0, [0x2f, 0x6d, 0x6e, 0x74, 0x32]) ∧
    v.findMount [0x2f, 0x6d, 0x6e, 0x74, 0x2f, 0x61] = some (1, [0x2f, 0x61]) ∧
    (v.mounts.map (·.path)).Nodup := by
  have h1 : Reach MountStep (Vfs.empty : Vfs Nat) _ :=
    Reach.refl.tail (.setRootFs _ 0 rfl (by simp [Vfs.empty]))
  have h2 := h1.tail (.mount _ _ [0x2f, 0x6d, 0x6e, 0x74] 1 rfl rfl)
  exact ⟨_, h2, by decide, by decide, (find_mount_longest _ h2).2.1⟩

end Kerners.Fs
