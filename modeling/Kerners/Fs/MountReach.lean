import Kerners.Fs.Syscall

/-!
# Whether a mount is reachable (`src/fs/mod.rs`)

`mount` compares and stores its path as it is given, `lookup_path` normalizes first. A filesystem is its
root vnode, as in `Kerners.Fs.Syscall`; the vnodes below it are an arbitrary `lookup`.
-/

namespace Kerners.Fs

open Lib List

variable {φ : Type} {p : Bytes}

/-- `lookup_path`, for a mount table and a tree of vnodes. -/
def Vfs.lookupPath (v : Vfs φ) (lookup : φ → Bytes → Except VfsError φ) (path : Bytes) :
    Except VfsError φ :=
  match normalize path with
  | .error e => .error e
  | .ok path =>
    match v.findMount path with
    | none => .error .notFound
    | some (fs, relativePath) => resolve lookup fs relativePath

theorem lookupPath_vfs {σ ω : Type} (F : Foreign σ ω) (s : FsState σ ω) (p : Bytes) :
    s.lookupPath F p = s.vfs.lookupPath (s.lookup F) p := by
  unfold FsState.lookupPath Vfs.lookupPath
  cases normalize p with
  | error e => rfl
  | ok q =>
    simp only
    cases s.vfs.findMount q <;> rfl

/-! ## Calls on the table -/

inductive MountCall (φ : Type) where
  | setRootFs (fs : φ)
  | mount (path : Bytes) (fs : φ)
  | unmount (path : Bytes) (fsUnmount : φ → Except VfsError Unit)

def Vfs.call (v : Vfs φ) : MountCall φ → Except VfsError (Vfs φ)
  | .setRootFs fs => .ok (v.setRootFs fs)
  | .mount path fs => v.mount path fs
  | .unmount path fsUnmount => v.unmount path fsUnmount

/-- The call unmounts `p` or mounts at a path equivalent to `p`. -/
def MountCall.Disturbs (p : Bytes) : MountCall φ → Prop
  | .setRootFs _ => normalize [slash] = normalize p
  | .mount path _ => normalize path = normalize p
  | .unmount path _ => path = p

def CallStep (permitted : MountCall φ → Prop) (v v' : Vfs φ) : Prop :=
  ∃ c, permitted c ∧ v.call c = .ok v'

def Vfs.Built (v : Vfs φ) : Prop := Reach (CallStep fun _ => True) Vfs.empty v

structure BuiltInv (v : Vfs φ) : Prop where
  sorted : v.mounts.Pairwise LongerFirst
  absolute : ∀ m ∈ v.mounts, m.path.head? = some slash

theorem length_pos_of_head (h : p.head? = some slash) : 1 ≤ p.length := by
  cases p with
  | nil => simp at h
  | cons x p => simp

variable {v v' : Vfs φ} {c : MountCall φ}

theorem mem_call (h : v.call c = .ok v') {m : MountPoint φ} (hm : m ∈ v'.mounts) :
    m ∈ v.mounts ∨ (c = .setRootFs m.fs ∧ m.path = [slash]) ∨ c = .mount m.path m.fs := by
  cases c with
  | setRootFs fs =>
    obtain rfl := Except.ok.inj h
    rcases mem_append.1 hm with hm | hm
    · exact .inl hm
    · obtain rfl := mem_singleton.1 hm
      exact .inr (.inl ⟨rfl, rfl⟩)
  | mount path fs =>
    obtain ⟨-, -, rfl⟩ := mount_ok h
    rcases mem_append.1 ((perm_insertionSort ..).mem_iff.1 hm) with hm | hm
    · exact .inl hm
    · obtain rfl := mem_singleton.1 hm
      exact .inr (.inr rfl)
  | unmount path f =>
    obtain ⟨-, rfl⟩ := unmount_ok h
    exact .inl (mem_of_mem_eraseP hm)

theorem mem_call_of_mem (h : v.call c = .ok v') {m : MountPoint φ} (hm : m ∈ v.mounts)
    (hc : ∀ f, c ≠ .unmount m.path f) : m ∈ v'.mounts := by
  cases c with
  | setRootFs fs =>
    obtain rfl := Except.ok.inj h
    exact mem_append_left _ hm
  | mount path fs =>
    obtain ⟨-, -, rfl⟩ := mount_ok h
    exact (perm_insertionSort ..).mem_iff.2 (mem_append_left _ hm)
  | unmount path f =>
    obtain ⟨-, rfl⟩ := unmount_ok h
    refine (mem_eraseP_of_neg fun he => ?_).2 hm
    exact hc f (by rw [eq_of_beq he])

theorem BuiltInv.call (hi : BuiltInv v) (h : v.call c = .ok v') : BuiltInv v' := by
  have habs : ∀ m ∈ v'.mounts, m.path.head? = some slash := by
    intro m hm
    rcases mem_call h hm with hm | ⟨-, hp⟩ | rfl
    · exact hi.absolute m hm
    · rw [hp]
      rfl
    · exact (mount_ok h).1
  refine ⟨?_, habs⟩
  cases c with
  | setRootFs fs =>
    obtain rfl := Except.ok.inj h
    refine pairwise_append.2 ⟨hi.sorted, pairwise_singleton _ _, fun a ha b hb => ?_⟩
    rw [mem_singleton.1 hb]
    exact length_pos_of_head (hi.absolute a ha)
  | mount path fs =>
    obtain ⟨-, -, rfl⟩ := mount_ok h
    exact pairwise_insertionSort ..
  | unmount path f =>
    obtain ⟨-, rfl⟩ := unmount_ok h
    exact hi.sorted.sublist eraseP_sublist

theorem Vfs.Built.inv (h : v.Built) : BuiltInv v :=
  Reach.invariant ⟨.nil, fun _ hm => absurd hm not_mem_nil⟩
    (fun hi ⟨_, _, hc⟩ => hi.call hc) h

/-! ## Which mounts cover a path -/

theorem covers_spelling {m : Bytes} (hp : Normalized p) (hm : m.head? = some slash)
    (h : covers p m = true) : Normalized m ∧ (m = p ∨ m.length < p.length) := by
  by_cases hroot : m = [slash]
  · refine ⟨hroot ▸ normalized_root, ?_⟩
    by_cases hpm : m = p
    · exact .inl hpm
    · have hcs : comps p ≠ [] := fun he => hpm (by rw [hroot, hp.eq_render, he]; rfl)
      have hlt := length_render_lt [] (comps_plain p) hcs
      rw [nil_append, ← hp.eq_render] at hlt
      exact .inr (hroot ▸ hlt)
  · have hplain := comps_plain p
    rw [hp.eq_render] at h
    obtain ⟨ds, -, ⟨es, hes⟩, rfl⟩ := covers_normalized hplain hm hroot h
    rw [← hes] at hplain
    have hds : ∀ c ∈ ds, Plain c := fun c hc => hplain c (mem_append_left _ hc)
    refine ⟨normalize_render hds, ?_⟩
    by_cases hnil : es = []
    · left
      rw [hp.eq_render, ← hes, hnil, append_nil]
    · right
      have hlt := length_render_lt ds (fun c hc => hplain c (mem_append_right _ hc)) hnil
      rwa [hes, ← hp.eq_render] at hlt

theorem covers_self (p : Bytes) : covers p p = true := by
  simp [covers]

theorem relativeTo_self (p : Bytes) : relativeTo p p = [slash] := by
  unfold relativeTo
  split
  · assumption
  · exact if_pos rfl

variable {fs : φ}

theorem findMount_mounted (hi : BuiltInv v) (hp : Normalized p) (hm : ⟨p, fs⟩ ∈ v.mounts)
    (honly : ∀ m ∈ v.mounts, m.path = p → m.fs = fs) : v.findMount p = some (fs, [slash]) := by
  obtain ⟨m, hfind⟩ : ∃ m, v.mounts.find? (fun m => covers p m.path) = some m :=
    Option.isSome_iff_exists.1 (find?_isSome.2 ⟨_, hm, covers_self p⟩)
  obtain ⟨hcov, before, after, hsplit, hbefore⟩ := find?_eq_some_iff_append.1 hfind
  have hmem : m ∈ v.mounts := mem_of_find?_eq_some hfind
  have hpath : m.path = p := by
    refine (covers_spelling hp (hi.absolute m hmem) hcov).2.resolve_right fun hlt => ?_
    -- the entry of `p` does not stand before `m`, and those behind `m` are not longer
    rw [hsplit] at hm
    rcases mem_append.1 hm with hb | hb
    · have hno := hbefore _ hb
      rw [covers_self] at hno
      cases hno
    · rcases mem_cons.1 hb with rfl | ha
      · exact Nat.lt_irrefl _ hlt
      · have hs := hi.sorted
        rw [hsplit] at hs
        have hle : p.length ≤ m.path.length :=
          (pairwise_cons.1 (pairwise_append.1 hs).2.1).1 _ ha
        omega
  rw [Vfs.findMount, hfind, Option.map_some, honly m hmem hpath, hpath, relativeTo_self]

/-! ## Reachable mounts -/

/-- A mount of `fs` at `p` that led to the table `v`: it is reached until it is disturbed, whatever the
trees of vnodes are then, and no other spelling of `p` is mounted. -/
structure MountReached (v : Vfs φ) (p : Bytes) (fs : φ) : Prop where
  reached : ∀ v', Reach (CallStep fun c => ¬ c.Disturbs p) v v' →
    ∀ lookup, v'.lookupPath lookup p = .ok fs
  single : ∀ m ∈ v.mounts, normalize m.path = normalize p → m.path = p

/-- What stays true of the table while nothing disturbs the mount. -/
structure Mounted (p : Bytes) (fs : φ) (v : Vfs φ) : Prop extends BuiltInv v where
  mem : ⟨p, fs⟩ ∈ v.mounts
  only : ∀ m ∈ v.mounts, m.path = p → m.fs = fs

theorem Mounted.call (hi : Mounted p fs v) (hc : ¬ c.Disturbs p) (h : v.call c = .ok v') :
    Mounted p fs v' := by
  refine ⟨hi.toBuiltInv.call h, mem_call_of_mem h hi.mem ?_, fun m hm hpath => ?_⟩
  · rintro f rfl
    exact hc rfl
  · rcases mem_call h hm with hm | ⟨rfl, hroot⟩ | rfl
    · exact hi.only m hm hpath
    · exact absurd (congrArg normalize (hroot.symm.trans hpath)) hc
    · exact absurd (congrArg normalize hpath) hc

theorem Mounted.lookupPath (h : Mounted p fs v) (hp : Normalized p)
    (lookup : φ → Bytes → Except VfsError φ) : v.lookupPath lookup p = .ok fs := by
  unfold Vfs.lookupPath
  rw [show normalize p = .ok p from hp]
  simp only [findMount_mounted h.toBuiltInv hp h.mem h.only]
  rfl

theorem resolve_without_names {fs' : φ} {cs : List Bytes} (h : ∀ c ∈ cs, Plain c)
    (hr : resolve (fun _ _ => .error .notFound) fs (render cs) = .ok fs') : cs = [] ∧ fs = fs' := by
  rw [resolve_render h] at hr
  cases cs with
  | nil => exact ⟨rfl, Except.ok.inj hr⟩
  | cons c cs => cases hr

theorem mounted_of_lookup (hi : BuiltInv v) (hp : p.head? = some slash)
    (h : v.lookupPath (fun _ _ => .error .notFound) p = .ok fs) :
    ∃ m ∈ v.mounts, Normalized m.path ∧ normalize p = .ok m.path := by
  have hq : Normalized (render (comps p)) := normalize_render (comps_plain p)
  have hcomps : comps (render (comps p)) = comps p := comps_render (comps_plain p)
  unfold Vfs.lookupPath at h
  rw [normalize_eq hp] at h ⊢
  simp only at h
  split at h
  · cases h
  · rename_i fs' rel hfind
    obtain ⟨m, hm, heq⟩ := Option.map_eq_some_iff.1 hfind
    obtain ⟨rfl, rfl⟩ := Prod.mk.inj heq
    have hmem : m ∈ v.mounts := mem_of_find?_eq_some hm
    have hcov := find?_some hm
    have hn := (covers_spelling hq (hi.absolute m hmem) hcov).1
    have hpre := (covers_iff hq hn).1 hcov
    rw [relativeTo_eq hq hn hpre] at h
    have hrest := (resolve_without_names (fun c hc =>
      comps_plain _ c (mem_of_mem_drop hc)) h).1
    refine ⟨m, hmem, hn, ?_⟩
    rw [hcomps] at hpre hrest
    have hlen := hpre.length_le
    rw [drop_eq_nil_iff] at hrest
    rw [← hpre.eq_of_length (by omega), ← hn.eq_render]

/-- **When a mount is reachable**: exactly when its path is normalized and no other spelling of it
is mounted. -/
theorem mount_reachable_iff (v v' : Vfs φ) (p : Bytes) (fs : φ) (hv : v.Built)
    (h : v.mount p fs = .ok v') :
    MountReached v' p fs ↔
      Normalized p ∧ ∀ m ∈ v.mounts, normalize m.path ≠ normalize p := by
  have hi := hv.inv
  have hcall : v.call (.mount p fs) = .ok v' := h
  have hi' := hi.call hcall
  obtain ⟨habs, hfresh, hv'⟩ := mount_ok h
  have hmem : ∀ m, m ∈ v'.mounts ↔ m ∈ v.mounts ∨ m = ⟨p, fs⟩ := by
    intro m
    rw [hv', (perm_insertionSort ..).mem_iff, mem_append, mem_singleton]
  constructor
  · intro hr
    refine ⟨?_, fun m hm heq => hfresh m hm (hr.single m ((hmem m).2 (.inl hm)) heq)⟩
    -- in trees without names only a mount at the normalized path itself can be reached
    obtain ⟨m, hm, hn, hq⟩ := mounted_of_lookup hi' habs (hr.reached v' .refl _)
    have hsame : m.path = p := hr.single m hm (by rw [show normalize m.path = _ from hn, hq])
    exact hsame ▸ hn
  · rintro ⟨hn, hother⟩
    have honly : ∀ m ∈ v'.mounts, normalize m.path = normalize p → m = ⟨p, fs⟩ := fun m hm heq =>
      ((hmem m).1 hm).resolve_left fun hm => hother m hm heq
    have hstart : Mounted p fs v' := ⟨hi', (hmem _).2 (.inr rfl), fun m hm hpath =>
      congrArg MountPoint.fs (honly m hm (congrArg normalize hpath))⟩
    refine ⟨fun v'' hreach => ?_, fun m hm heq => congrArg MountPoint.path (honly m hm heq)⟩
    have hend : Mounted p fs v'' := Reach.invariant hstart
      (fun hi ⟨_, hc, hok⟩ => hi.call hc hok) hreach
    exact hend.lookupPath hn

theorem mount_reachable_mnt : ∃ v v' : Vfs Nat, v.Built ∧
    v.mount [0x2f, 0x6d, 0x6e, 0x74] 1 = .ok v' ∧ MountReached v' [0x2f, 0x6d, 0x6e, 0x74] 1 := by
  have hv : (Vfs.empty.setRootFs 0 : Vfs Nat).Built :=
    Reach.refl.tail ⟨.setRootFs 0, trivial, rfl⟩
  refine ⟨_, _, hv, rfl, (mount_reachable_iff _ _ _ _ hv rfl).2 ⟨rfl, fun m hm => ?_⟩⟩
  rw [mem_singleton.1 hm]
  decide

/-- With `/` mounted, a filesystem is mounted at `/a/` and another one at `/a`; the first is not reached
by its path. -/
theorem mount_trailing_slash : ∃ v v' v'' : Vfs Nat, v.Built ∧
    v.mount [0x2f, 0x61, 0x2f] 1 = .ok v' ∧ v'.mount [0x2f, 0x61] 2 = .ok v'' ∧
    v'.lookupPath (fun _ _ => .error .notFound) [0x2f, 0x61, 0x2f] = .error .notFound ∧
    v''.lookupPath (fun _ _ => .error .notFound) [0x2f, 0x61, 0x2f] = .ok 2 ∧
    ¬ MountReached v' [0x2f, 0x61, 0x2f] 1 ∧ ¬ MountReached v'' [0x2f, 0x61] 2 := by
  have hv : (Vfs.empty.setRootFs 0 : Vfs Nat).Built :=
    Reach.refl.tail ⟨.setRootFs 0, trivial, rfl⟩
  refine ⟨_, _, _, hv, rfl, rfl, by decide, by decide, fun h => ?_, fun h => ?_⟩
  · have hr := h.reached _ .refl fun _ _ => .error .notFound
    revert hr
    decide
  · have hs := h.single ⟨[0x2f, 0x61, 0x2f], 1⟩ (by decide) (by decide)
    revert hs
    decide

end Kerners.Fs
