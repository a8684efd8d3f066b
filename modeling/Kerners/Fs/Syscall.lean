import Kerners.Fs.Mount
import Kerners.Fs.RamFs

/-!
# System calls on paths (`src/syscall/fs.rs`, `src/fs/mod.rs`, `src/fs/path.rs`, `src/fs/fd.rs`)

`lookup_path` finds the filesystem of a path in the mount table; `sys_open` with `O_CREAT`,
`sys_mkdir` and `sys_unlink` resolve the parent of the path from the root filesystem. The root
filesystem is a RamFs, as `init_vfs` makes it; anything may be mounted over it.

* A vnode is a RamFs vnode or one of another filesystem (`Obj`); a filesystem is its root vnode.
  The other filesystems are an arbitrary `Foreign`: a state with the vnode operations on it, where
  truncating a file changes no lookup.
* A path pointer is null or the bytes before the terminating zero.
-/

namespace Kerners.Fs

open Lib List

/-- The filesystems other than RamFs: their state and the vnode operations. -/
structure Foreign (σ ω : Type) where
  lookup : σ → ω → Bytes → Except VfsError ω
  create : σ → ω → Bytes → VNodeType → Nat → Except VfsError (ω × σ)
  unlink : σ → ω → Bytes → Except VfsError σ
  truncate : σ → ω → σ
  nodeType : σ → ω → VNodeType
  truncate_lookup : ∀ s o, lookup (truncate s o) = lookup s

inductive Obj (ω : Type) where
  | ram (x : Nat)
  | foreign (o : ω)
  deriving DecidableEq

structure OpenFile (ω : Type) where
  vnode : Obj ω
  flags : Nat
  offset : Nat
  deriving DecidableEq

/-- The filesystems and `KERNEL_FD_TABLE`; `roots` lists the roots of the RamFs instances. -/
structure FsState (σ ω : Type) where
  vfs : Vfs (Obj ω)
  heap : Heap
  world : σ
  fds : Option (List (Option (OpenFile ω)))
  roots : List Nat

def isCreate (flags : Nat) : Bool := flags &&& 0o100 != 0

def isTruncate (flags : Nat) : Bool := flags &&& 0o1000 != 0

def isDirectory (flags : Nat) : Bool := flags &&& 0o200000 != 0

def isWritable (flags : Nat) : Bool := flags &&& 3 == 1 || flags &&& 3 == 2

def vfsErrorToErrno : VfsError → Int
  | .notFound => -2
  | .permissionDenied => -13
  | .alreadyExists => -16
  | .notADirectory => -20
  | .isADirectory => -21
  | .ioError => -5
  | .noSpace => -12
  | .readOnly => -13
  | .notSupported => -38
  | .invalidArgument => -22
  | _ => -5

theorem vfsErrorToErrno_neg (e : VfsError) : vfsErrorToErrno e < 0 := by
  cases e <;> decide

/-- `FdTable::insert`, with `max_fds` as `with_stdio` sets it. -/
def insertFd {ω : Type} (files : List (Option (OpenFile ω))) (file : OpenFile ω) :
    Except VfsError (Nat × List (Option (OpenFile ω))) :=
  match files.findIdx? (·.isNone) with
  | some i => .ok (i, files.set i (some file))
  | none => if files.length ≥ 256 then .error .noSpace else .ok (files.length, files ++ [some file])

namespace FsState

variable {σ ω : Type} (F : Foreign σ ω) (s : FsState σ ω)

def lookup : Obj ω → Bytes → Except VfsError (Obj ω)
  | .ram x, name => (s.heap.lookup x name).map .ram
  | .foreign o, name => (F.lookup s.world o name).map .foreign

def create (name : Bytes) (nodeType : VNodeType) (mode : Nat) :
    Obj ω → Except VfsError (Obj ω × FsState σ ω)
  | .ram d => (s.heap.create d name nodeType mode).map fun r => (.ram r.1, { s with heap := r.2 })
  | .foreign o =>
    (F.create s.world o name nodeType mode).map fun r => (.foreign r.1, { s with world := r.2 })

def unlink (name : Bytes) : Obj ω → Except VfsError (FsState σ ω)
  | .ram d => (s.heap.unlink d name).map fun heap => { s with heap := heap }
  | .foreign o => (F.unlink s.world o name).map fun world => { s with world := world }

/-- `VNode::truncate(0)`; its result is ignored. -/
def truncate : Obj ω → FsState σ ω
  | .ram x => { s with heap := s.heap.setData x [] }
  | .foreign o => { s with world := F.truncate s.world o }

def nodeType : Obj ω → VNodeType
  | .ram x => (s.heap[x]?.map Node.nodeType).getD .file
  | .foreign o => F.nodeType s.world o

def lookupPath (path : Bytes) : Except VfsError (Obj ω) :=
  match normalize path with
  | .error e => .error e
  | .ok path =>
    match s.vfs.findMount path with
    | none => .error .notFound
    | some (fs, relativePath) => resolve (s.lookup F) fs relativePath

/-- The end of `sys_open`, with the vnode found or created. -/
def openVnode (vnode : Obj ω) (flags : Nat) : Int × FsState σ ω :=
  let s := if isTruncate flags && isWritable flags then s.truncate F vnode else s
  match s.fds with
  | none => (vfsErrorToErrno .notFound, s)
  | some files =>
    match insertFd files ⟨vnode, flags, 0⟩ with
    | .error e => (vfsErrorToErrno e, s)
    | .ok (fd, files) => (fd, { s with fds := some files })

/-- `sys_open`; `none` is the panic of `root_fs().unwrap()`. -/
def sysOpen (path : Option Bytes) (flags mode : Nat) : Option (Int × FsState σ ω) :=
  match path with
  | none => some (-14, s)
  | some path =>
    if path.length > 4096 then some (-22, s)
    else
      match s.lookupPath F path with
      | .ok v =>
        if isDirectory flags && s.nodeType F v ≠ .directory then some (-20, s)
        else some (s.openVnode F v flags)
      | .error e =>
        if e = .notFound ∧ isCreate flags = true then
          match s.vfs.rootFs with
          | none => none
          | some root =>
            match resolveParent (s.lookup F) root path with
            | .error e => some (vfsErrorToErrno e, s)
            | .ok (parent, name) =>
              match s.create F name .file (fileMode mode) parent with
              | .error e => some (vfsErrorToErrno e, s)
              | .ok (v, s) => some (s.openVnode F v flags)
        else some (vfsErrorToErrno e, s)

/-- What `sys_mkdir` and `sys_unlink` share: resolve the parent from the root filesystem and call
one of its operations. -/
def atParent (path : Option Bytes)
    (op : Obj ω → Bytes → Except VfsError (FsState σ ω)) : Int × FsState σ ω :=
  match path with
  | none => (-14, s)
  | some path =>
    match s.vfs.rootFs with
    | none => (-5, s)
    | some root =>
      match resolveParent (s.lookup F) root path with
      | .error e => (vfsErrorToErrno e, s)
      | .ok (parent, name) =>
        match op parent name with
        | .error e => (vfsErrorToErrno e, s)
        | .ok s => (0, s)

def sysMkdir (path : Option Bytes) (mode : Nat) : Int × FsState σ ω :=
  s.atParent F path fun parent name =>
    (s.create F name .directory (fileMode mode) parent).map Prod.snd

def sysUnlink (path : Option Bytes) : Int × FsState σ ω :=
  s.atParent F path fun parent name => s.unlink F name parent

end FsState

/-! ## What the two ways of resolving see -/

section

variable {σ ω : Type} {F : Foreign σ ω} {s : FsState σ ω} {cs : List Bytes} {ν : Type}
  {lookup : ν → Bytes → Except VfsError ν} {root : ν} {r : Nat} {p c : Bytes}

theorem foldlM_ram (r : Nat) (cs : List Bytes) :
    cs.foldlM (s.lookup F) (.ram r) = (s.heap.walk r cs).map Obj.ram := by
  induction cs generalizing r with
  | nil => rfl
  | cons c cs ih =>
    unfold Heap.walk at ih ⊢
    rw [foldlM_cons, foldlM_cons]
    change ((s.heap.lookup r c).map Obj.ram >>= _) = _
    cases s.heap.lookup r c with
    | error e => rfl
    | ok x => exact ih x

theorem foldlM_foreign (o : ω) (cs : List Bytes) :
    cs.foldlM (s.lookup F) (.foreign o) = (cs.foldlM (F.lookup s.world) o).map Obj.foreign := by
  induction cs generalizing o with
  | nil => rfl
  | cons c cs ih =>
    rw [foldlM_cons, foldlM_cons]
    change ((F.lookup s.world o c).map Obj.foreign >>= _) = _
    cases F.lookup s.world o c with
    | error e => rfl
    | ok x => exact ih x

theorem resolve_render (h : ∀ c ∈ cs, Plain c) :
    resolve lookup root (render cs) = cs.foldlM lookup root := by
  unfold resolve
  by_cases hcs : cs = []
  · subst hcs
    rfl
  · have hne : ¬ (render cs = [] ∨ render cs = [slash]) := by
      rintro (h' | h')
      · have := render_head cs
        simp [h'] at this
      · exact hcs (render_inj h (by simp) (h'.trans rfl))
    rw [if_neg hne, normalize_render h, render_of_ne hcs]
    simp only [splitOn_joined (Plain.sepFree h)]
    congr 1
    have hall : ∀ c ∈ cs, decide (c ≠ []) = true := fun c hc => decide_eq_true (h c hc).ne_nil
    simpa using filter_eq_self.2 hall

theorem resolve_ram (h : ∀ c ∈ cs, Plain c) :
    resolve (s.lookup F) (.ram r) (render cs) = (s.heap.walk r cs).map Obj.ram := by
  rw [resolve_render h, foldlM_ram]

theorem resolveParent_concat (hp : p.head? = some slash) (hcs : comps p = cs ++ [c]) :
    resolveParent lookup root p = (cs.foldlM lookup root).map fun d => (d, c) := by
  have hplain := comps_plain p
  rw [hcs] at hplain
  have hc : Plain c := hplain c (by simp)
  unfold resolveParent
  rw [normalize_eq hp, hcs]
  simp only [split_render cs hc.no_slash, if_neg hc.ne_nil]
  rw [resolve_render fun x hx => hplain x (mem_append_left _ hx)]

theorem resolveParent_ram (hp : p.head? = some slash) (hcs : comps p = cs ++ [c]) :
    resolveParent (s.lookup F) (.ram r) p =
      (s.heap.walk r cs).map fun d => (Obj.ram d, c) := by
  rw [resolveParent_concat hp hcs, foldlM_ram]
  cases s.heap.walk r cs <;> rfl

theorem resolveParent_root (hp : p.head? = some slash) (hcs : comps p = []) :
    resolveParent lookup root p = .error .invalidPath := by
  unfold resolveParent
  rw [normalize_eq hp, hcs]
  simp only [split_root]
  rfl

theorem lookupPath_eq (hp : p.head? = some slash) :
    s.lookupPath F p =
      match s.vfs.findMount (render (comps p)) with
      | none => .error .notFound
      | some (fs, rel) => resolve (s.lookup F) fs rel := by
  unfold FsState.lookupPath
  rw [normalize_eq hp]

end

/-! ## Reachable states -/

inductive FsStep {σ ω : Type} (F : Foreign σ ω) : FsState σ ω → FsState σ ω → Prop
  | newRamFs (s : FsState σ ω) (mode : Nat) :
      FsStep F s { s with heap := s.heap ++ [.dir mode []], roots := s.heap.length :: s.roots }
  | mount (s : FsState σ ω) (path : Bytes) (fs : Obj ω) (vfs : Vfs (Obj ω)) :
      (∀ r, fs = .ram r → r ∈ s.roots) → s.vfs.mount path fs = .ok vfs →
      FsStep F s { s with vfs := vfs }
  | unmount (s : FsState σ ω) (path : Bytes) (fsUnmount : Obj ω → Except VfsError Unit)
      (vfs : Vfs (Obj ω)) :
      s.vfs.unmount path fsUnmount = .ok vfs → FsStep F s { s with vfs := vfs }
  | create (s s' : FsState σ ω) (parent v : Obj ω) (name : Bytes) (nodeType : VNodeType)
      (mode : Nat) :
      s.create F name nodeType mode parent = .ok (v, s') → FsStep F s s'
  | unlink (s s' : FsState σ ω) (parent : Obj ω) (name : Bytes) :
      s.unlink F name parent = .ok s' → FsStep F s s'
  | setData (s : FsState σ ω) (x : Nat) (data : Bytes) :
      FsStep F s { s with heap := s.heap.setData x data }
  | other (s : FsState σ ω) (world : σ) (fds : Option (List (Option (OpenFile ω)))) :
      FsStep F s { s with world := world, fds := fds }

/-- After `set_root_fs` in `init_vfs`. -/
def FsState.start {σ ω : Type} (world : σ) : FsState σ ω :=
  ⟨Vfs.empty.setRootFs (.ram 0), [.dir 0o755 []], world, none, [0]⟩

section

variable {σ ω : Type} {F : Foreign σ ω} {s : FsState σ ω} {path p : Bytes} {vfs : Vfs (Obj ω)}
  {s' : FsState σ ω} {cs : List Bytes} {mode flags : Nat} {fd : Int}

/-- The RamFs vnodes are trees, the root filesystem is mounted at `/`, and the table is sorted. -/
structure FsInv (s : FsState σ ω) : Prop where
  forest : Forest s.heap s.roots
  root : 0 ∈ s.roots
  rootFs : s.vfs.rootFs = some (.ram 0)
  sorted : s.vfs.mounts.Pairwise LongerFirst
  absolute : ∀ m ∈ s.vfs.mounts, m.path.head? = some slash
  slashFs : ∀ m ∈ s.vfs.mounts, m.path = [slash] → m.fs = .ram 0
  hasRoot : ∃ m ∈ s.vfs.mounts, m.path = [slash]
  mounted : ∀ m ∈ s.vfs.mounts, ∀ r, m.fs = .ram r → r ∈ s.roots

theorem FsInv.setHeap (hi : FsInv s) {h : Heap} (hf : Forest h s.roots) (world : σ) :
    FsInv { s with heap := h, world := world } :=
  ⟨hf, hi.root, hi.rootFs, hi.sorted, hi.absolute, hi.slashFs, hi.hasRoot, hi.mounted⟩

theorem FsInv.mount (hi : FsInv s) {fs : Obj ω} (hfs : ∀ r, fs = .ram r → r ∈ s.roots)
    (h : s.vfs.mount path fs = .ok vfs) : FsInv { s with vfs := vfs } := by
  obtain ⟨habs, hfresh, rfl⟩ := mount_ok h
  have hmem : ∀ m, m ∈ List.insertionSort LongerFirst (s.vfs.mounts ++ [⟨path, fs⟩]) ↔
      m ∈ s.vfs.mounts ∨ m = ⟨path, fs⟩ := by
    intro m
    rw [mem_insertionSort, mem_append, mem_singleton]
  obtain ⟨m0, hm0, hroot⟩ := hi.hasRoot
  refine ⟨hi.forest, hi.root, hi.rootFs, pairwise_insertionSort .., ?_, ?_, ?_, ?_⟩
  · intro m hm
    rcases (hmem m).1 hm with hm | rfl
    · exact hi.absolute m hm
    · exact habs
  · intro m hm he
    rcases (hmem m).1 hm with hm | rfl
    · exact hi.slashFs m hm he
    · exact absurd (hroot.trans he.symm) (hfresh m0 hm0)
  · exact ⟨m0, (hmem m0).2 (.inl hm0), hroot⟩
  · intro m hm r he
    rcases (hmem m).1 hm with hm | rfl
    · exact hi.mounted m hm r he
    · exact hfs r he

theorem FsInv.unmount (hi : FsInv s) {f : Obj ω → Except VfsError Unit}
    (h : s.vfs.unmount path f = .ok vfs) : FsInv { s with vfs := vfs } := by
  obtain ⟨hne, rfl⟩ := unmount_ok h
  have hsub : (s.vfs.mounts.eraseP (·.path == path)).Sublist s.vfs.mounts := eraseP_sublist
  obtain ⟨m0, hm0, hroot⟩ := hi.hasRoot
  refine ⟨hi.forest, hi.root, hi.rootFs, hi.sorted.sublist hsub,
    fun m hm => hi.absolute m (hsub.subset hm), fun m hm => hi.slashFs m (hsub.subset hm), ?_,
    fun m hm => hi.mounted m (hsub.subset hm)⟩
  have hkeep : ¬ (fun m : MountPoint (Obj ω) => m.path == path) m0 = true := by
    rw [beq_iff_eq, hroot]
    exact hne.symm
  exact ⟨m0, (mem_eraseP_of_neg (p := fun m => m.path == path) hkeep).2 hm0, hroot⟩

theorem map_ok {α β : Type} {e : Except VfsError α} {f : α → β} {b : β} :
    e.map f = .ok b ↔ ∃ a, e = .ok a ∧ f a = b := by
  cases e <;> simp [Except.map]

theorem FsInv.create (hi : FsInv s) {s' : FsState σ ω} {parent v : Obj ω} {name : Bytes}
    {nodeType : VNodeType} {mode : Nat} (h : s.create F name nodeType mode parent = .ok (v, s')) :
    FsInv s' := by
  cases parent with
  | ram d =>
    obtain ⟨⟨x, h'⟩, hc, he⟩ := map_ok.1 h
    obtain ⟨-, rfl⟩ := Prod.mk.inj he
    exact hi.setHeap (hi.forest.create hc) s.world
  | foreign o =>
    obtain ⟨⟨o', w⟩, -, he⟩ := map_ok.1 h
    obtain ⟨-, rfl⟩ := Prod.mk.inj he
    exact hi.setHeap hi.forest w

theorem FsInv.unlink (hi : FsInv s) {parent : Obj ω} {name : Bytes}
    (h : s.unlink F name parent = .ok s') : FsInv s' := by
  cases parent with
  | ram d =>
    obtain ⟨h', hu, rfl⟩ := map_ok.1 h
    exact hi.setHeap (hi.forest.unlink hu) s.world
  | foreign o =>
    obtain ⟨w, -, rfl⟩ := map_ok.1 h
    exact hi.setHeap hi.forest w

theorem FsInv.step {s' : FsState σ ω} (hi : FsInv s) (h : FsStep F s s') : FsInv s' := by
  cases h with
  | newRamFs mode =>
    exact ⟨hi.forest.newRoot mode, mem_cons_of_mem _ hi.root, hi.rootFs, hi.sorted,
      hi.absolute, hi.slashFs, hi.hasRoot,
      fun m hm r he => mem_cons_of_mem _ (hi.mounted m hm r he)⟩
  | mount path fs vfs hfs hok => exact hi.mount hfs hok
  | unmount path f vfs hok => exact hi.unmount hok
  | create _ parent v name nodeType mode hok => exact hi.create hok
  | unlink _ parent name hok => exact hi.unlink hok
  | setData x data => exact hi.setHeap (hi.forest.setData x data) s.world
  | other world fds =>
    exact ⟨hi.forest, hi.root, hi.rootFs, hi.sorted, hi.absolute, hi.slashFs, hi.hasRoot,
      hi.mounted⟩

theorem FsInv.start (world : σ) : FsInv (FsState.start world : FsState σ ω) := by
  have hmem : ∀ m ∈ (FsState.start world : FsState σ ω).vfs.mounts, m = ⟨[slash], .ram 0⟩ :=
    fun m hm => mem_singleton.1 hm
  refine ⟨?_, mem_singleton.2 rfl, rfl, pairwise_singleton _ _, ?_, ?_, ?_, ?_⟩
  · have hempty : Forest [] [] :=
      ⟨by simp [Entry], by simp, by simp [Entry], by simp, by simp⟩
    exact hempty.newRoot 0o755
  · intro m hm
    rw [hmem m hm]
    rfl
  · intro m hm _
    rw [hmem m hm]
  · exact ⟨_, mem_singleton.2 rfl, rfl⟩
  · intro m hm r he
    rw [hmem m hm] at he
    cases he
    exact mem_singleton.2 rfl

/-! ## The mount of a path -/

/-- No mount but `/` covers the path. -/
def RootOnly (s : FsState σ ω) (cs : List Bytes) : Prop :=
  ∀ m ∈ s.vfs.mounts, covers (render cs) m.path = true → m.path = [slash]

theorem covers_slash (p : Bytes) : covers p [slash] = true := by simp [covers]

theorem FsInv.findMount_root (hi : FsInv s) (h : RootOnly s cs) :
    s.vfs.findMount (render cs) = some (.ram 0, render cs) := by
  obtain ⟨m0, hm0, hroot⟩ := hi.hasRoot
  cases hfind : s.vfs.mounts.find? fun m => covers (render cs) m.path with
  | none =>
    have := find?_eq_none.1 hfind m0 hm0
    rw [hroot] at this
    exact absurd (covers_slash _) this
  | some m =>
    have hm := mem_of_find?_eq_some hfind
    have hcov : covers (render cs) m.path = true := by simpa using find?_some hfind
    have hpath := h m hm hcov
    simp [Vfs.findMount, hfind, hi.slashFs m hm hpath, relativeTo, hpath]

theorem FsInv.findMount_mounted (hi : FsInv s) (hc : ∀ c ∈ cs, Plain c) (h : ¬ RootOnly s cs) :
    ∃ m ∈ s.vfs.mounts, ∃ ds, ds ≠ [] ∧ ds <+: cs ∧
      s.vfs.findMount (render cs) = some (m.fs, render (cs.drop ds.length)) := by
  unfold RootOnly at h
  push Not at h
  obtain ⟨m', hm', hcov', hne'⟩ := h
  cases hfind : s.vfs.mounts.find? fun m => covers (render cs) m.path with
  | none => exact absurd hcov' (find?_eq_none.1 hfind m' hm')
  | some m =>
    have hm := mem_of_find?_eq_some hfind
    obtain ⟨hcov, before, after, hsplit, hbefore⟩ := find?_eq_some_iff_append.1 hfind
    have hlen' : 2 ≤ m'.path.length := by
      have habs := hi.absolute m' hm'
      match hp : m'.path with
      | [] => simp [hp] at habs
      | [x] =>
        rw [hp] at habs
        exact absurd (by rw [hp]; simpa using habs) hne'
      | x :: y :: l => simp
    have hne : m.path ≠ [slash] := by
      intro he
      have hm'' := hm'
      rw [hsplit] at hm''
      rcases mem_append.1 hm'' with hb | hb
      · have := hbefore m' hb
        simp [hcov'] at this
      · rcases mem_cons.1 hb with rfl | ha
        · exact hne' he
        · have hs := hi.sorted
          rw [hsplit] at hs
          have hle := (pairwise_cons.1 (pairwise_append.1 hs).2.1).1 m' ha
          unfold LongerFirst at hle
          rw [he] at hle
          simp at hle
          omega
    obtain ⟨ds, hds, hpre, hpath⟩ := covers_normalized hc (hi.absolute m hm) hne hcov
    have hdsp : ∀ c ∈ ds, Plain c := fun c hcm => hc c (hpre.subset hcm)
    have hrel := relativeTo_eq (normalize_render hc) (normalize_render hdsp)
      (by rwa [comps_render hc, comps_render hdsp])
    rw [comps_render hc, comps_render hdsp] at hrel
    refine ⟨m, hm, ds, hds, hpre, ?_⟩
    simp [Vfs.findMount, hfind, hpath, hrel]

theorem FsInv.lookupPath_root (hi : FsInv s) (hp : p.head? = some slash)
    (h : RootOnly s (comps p)) : s.lookupPath F p = (s.heap.walk 0 (comps p)).map Obj.ram := by
  rw [lookupPath_eq hp, hi.findMount_root h]
  exact resolve_ram (comps_plain p)

theorem FsInv.lookupPath_mounted (hi : FsInv s) (hp : p.head? = some slash)
    (h : ¬ RootOnly s (comps p)) {x : Nat} (hw : s.heap.walk 0 (comps p) = .ok x) :
    s.lookupPath F p ≠ .ok (.ram x) := by
  obtain ⟨m, hm, ds, hds, hpre, hfind⟩ := hi.findMount_mounted (comps_plain p) h
  have hplain : ∀ c ∈ (comps p).drop ds.length, Plain c := fun c hc =>
    comps_plain p c (mem_of_mem_drop hc)
  rw [lookupPath_eq hp, hfind]
  intro hl
  simp only [resolve_render hplain] at hl
  cases hfs : m.fs with
  | foreign o =>
    rw [hfs, foldlM_foreign] at hl
    obtain ⟨y, -, hy⟩ := map_ok.1 hl
    cases hy
  | ram r =>
    rw [hfs, foldlM_ram] at hl
    obtain ⟨y, hy, he⟩ := map_ok.1 hl
    cases he
    obtain ⟨-, hsame⟩ := hi.forest.walk_inj (hi.mounted m hm r hfs) hi.root hy hw
    have hlen := congrArg List.length hsame
    have hpos := length_pos_iff.2 hds
    have hle := hpre.length_le
    rw [length_drop] at hlen
    omega

theorem lookupPath_congr (hv : s'.vfs = s.vfs) (hl : s'.lookup F = s.lookup F) (p : Bytes) :
    s'.lookupPath F p = s.lookupPath F p := by
  unfold FsState.lookupPath
  rw [hv, hl]

/-! ## What success of a call means -/

theorem FsInv.atParent_zero (hi : FsInv s) (hp : p.head? = some slash)
    {op : Obj ω → Bytes → Except VfsError (FsState σ ω)} :
    s.atParent F (some p) op = (0, s') ↔
      ∃ cs c d, comps p = cs ++ [c] ∧ s.heap.walk 0 cs = .ok d ∧ op (.ram d) c = .ok s' := by
  have herr : ∀ (e : VfsError) (t : FsState σ ω), (vfsErrorToErrno e, t) ≠ (0, s') := by
    intro e t he
    have := (Prod.mk.inj he).1
    have := vfsErrorToErrno_neg e
    omega
  unfold FsState.atParent
  simp only [hi.rootFs]
  rcases eq_nil_or_concat (comps p) with hnil | ⟨cs, c, hcs⟩
  · rw [resolveParent_root hp hnil]
    simp [herr, hnil]
  · rw [concat_eq_append] at hcs
    rw [resolveParent_ram hp hcs]
    have huniq : ∀ {cs' : List Bytes} {c' : Bytes}, comps p = cs' ++ [c'] → cs' = cs ∧ c' = c := by
      intro cs' c' h
      have := append_inj' (h.symm.trans hcs) rfl
      exact ⟨this.1, by simpa using this.2⟩
    cases hw : s.heap.walk 0 cs with
    | error e =>
      refine ⟨fun h => absurd h (herr _ _), ?_⟩
      rintro ⟨cs', c', d, h, hd, -⟩
      obtain ⟨rfl, rfl⟩ := huniq h
      rw [hw] at hd
      cases hd
    | ok d =>
      simp only [Except.map]
      constructor
      · intro h
        cases hop : op (.ram d) c with
        | error e =>
          simp only [hop] at h
          exact absurd h (herr _ _)
        | ok t =>
          simp only [hop, Prod.mk.injEq, true_and] at h
          exact ⟨cs, c, d, hcs, hw, h ▸ hop⟩
      · rintro ⟨cs', c', d', h, hd, hop⟩
        obtain ⟨rfl, rfl⟩ := huniq h
        obtain rfl : d = d' := by simpa using hw.symm.trans hd
        simp only [hop]

def Created (s s' : FsState σ ω) (v : Obj ω) : Prop :=
  ∃ x, v = .ram x ∧ s.heap.length ≤ x ∧ x < s'.heap.length

/-- A vnode that a directory holds before the call and not after it. -/
def Removed (s s' : FsState σ ω) (v : Obj ω) : Prop :=
  ∃ x d name, v = .ram x ∧ Entry s.heap d name x ∧ ¬ Entry s'.heap d name x

theorem FsInv.mkdir_zero (hi : FsInv s) (hp : p.head? = some slash) :
    s.sysMkdir F (some p) mode = (0, s') ↔ ∃ cs c d x h, comps p = cs ++ [c] ∧
      s.heap.walk 0 cs = .ok d ∧ s.heap.create d c .directory (fileMode mode) = .ok (x, h) ∧
      s' = { s with heap := h } := by
  unfold FsState.sysMkdir
  rw [hi.atParent_zero hp]
  constructor
  · rintro ⟨cs, c, d, hcs, hw, hop⟩
    obtain ⟨⟨v, t⟩, hc, rfl⟩ := map_ok.1 hop
    obtain ⟨⟨x, h⟩, hcreate, he⟩ := map_ok.1 hc
    obtain ⟨-, rfl⟩ := Prod.mk.inj he
    exact ⟨cs, c, d, x, h, hcs, hw, hcreate, rfl⟩
  · rintro ⟨cs, c, d, x, h, hcs, hw, hc, rfl⟩
    refine ⟨cs, c, d, hcs, hw, ?_⟩
    simp [FsState.create, hc, Except.map]

theorem FsInv.unlink_zero (hi : FsInv s) (hp : p.head? = some slash) :
    s.sysUnlink F (some p) = (0, s') ↔ ∃ cs c d h, comps p = cs ++ [c] ∧
      s.heap.walk 0 cs = .ok d ∧ s.heap.unlink d c = .ok h ∧ s' = { s with heap := h } := by
  unfold FsState.sysUnlink
  rw [hi.atParent_zero hp]
  constructor
  · rintro ⟨cs, c, d, hcs, hw, hop⟩
    obtain ⟨h, hu, rfl⟩ := map_ok.1 hop
    exact ⟨cs, c, d, h, hcs, hw, hu, rfl⟩
  · rintro ⟨cs, c, d, h, hcs, hw, hu, rfl⟩
    refine ⟨cs, c, d, hcs, hw, ?_⟩
    simp [FsState.unlink, hu, Except.map]

theorem insertFd_ok {files files' : List (Option (OpenFile ω))} {file : OpenFile ω} {fd : Nat}
    (h : insertFd files file = .ok (fd, files')) : files'[fd]? = some (some file) := by
  unfold insertFd at h
  split at h
  · rename_i i hi
    injection h with h
    obtain ⟨rfl, rfl⟩ := Prod.mk.inj h
    obtain ⟨hlt, -⟩ := findIdx?_eq_some_iff_getElem.1 hi
    rw [getElem?_set_self hlt]
  · split at h
    · simp at h
    · injection h with h
      obtain ⟨rfl, rfl⟩ := Prod.mk.inj h
      simp

theorem lookup_truncate (v : Obj ω) : (s.truncate F v).lookup F = s.lookup F := by
  funext o name
  cases v with
  | ram x =>
    cases o with
    | ram d => exact congrArg (Except.map Obj.ram) (lookup_setData x [] d name)
    | foreign o => rfl
  | foreign w =>
    cases o with
    | ram d => rfl
    | foreign o =>
      change (F.lookup (F.truncate s.world w) o name).map Obj.foreign = _
      rw [F.truncate_lookup]
      rfl

theorem openVnode_ok {v : Obj ω} (h : s.openVnode F v flags = (fd, s')) (hfd : 0 ≤ fd) :
    (∃ file, (s'.fds.getD [])[fd.toNat]? = some (some file) ∧ file.vnode = v) ∧
      ∀ p, s'.lookupPath F p = s.lookupPath F p := by
  unfold FsState.openVnode at h
  generalize hs1 : (if (isTruncate flags && isWritable flags) = true then s.truncate F v else s) = s1
    at h
  have hl : s1.vfs = s.vfs ∧ s1.lookup F = s.lookup F := by
    rw [← hs1]
    split
    · exact ⟨by cases v <;> rfl, lookup_truncate v⟩
    · exact ⟨rfl, rfl⟩
  simp only at h
  split at h
  · obtain ⟨rfl, -⟩ := Prod.mk.inj h
    exact absurd hfd (by decide)
  · rename_i files hfiles
    split at h
    · rename_i e he
      obtain ⟨rfl, -⟩ := Prod.mk.inj h
      exact absurd hfd (by have := vfsErrorToErrno_neg e; omega)
    · rename_i i files' hins
      obtain ⟨rfl, rfl⟩ := Prod.mk.inj h
      refine ⟨⟨⟨v, flags, 0⟩, by simpa using insertFd_ok hins, rfl⟩, fun p => ?_⟩
      exact (lookupPath_congr (F := F) (s := s1) rfl rfl p).trans (lookupPath_congr hl.1 hl.2 p)

theorem FsInv.sysOpen_ok (hi : FsInv s) (hp : p.head? = some slash)
    (h : s.sysOpen F (some p) flags mode = some (fd, s')) (hfd : 0 ≤ fd) :
    (∃ v, s.lookupPath F p = .ok v ∧ s.openVnode F v flags = (fd, s')) ∨
      ∃ cs c d x heap, comps p = cs ++ [c] ∧ s.heap.walk 0 cs = .ok d ∧
        s.heap.create d c .file (fileMode mode) = .ok (x, heap) ∧
        FsState.openVnode F { s with heap := heap } (.ram x) flags = (fd, s') := by
  have herr : ∀ (e : VfsError) (t : FsState σ ω), some (vfsErrorToErrno e, t) ≠ some (fd, s') := by
    intro e t he
    have := (Prod.mk.inj (Option.some.inj he)).1
    have := vfsErrorToErrno_neg e
    omega
  unfold FsState.sysOpen at h
  simp only at h
  split at h
  · exact absurd (Prod.mk.inj (Option.some.inj h)).1 (by omega)
  · split at h
    · rename_i v hv
      split at h
      · exact absurd (Prod.mk.inj (Option.some.inj h)).1 (by omega)
      · exact .inl ⟨v, hv, Option.some.inj h⟩
    · split at h
      · simp only [hi.rootFs] at h
        rcases eq_nil_or_concat (comps p) with hnil | ⟨cs, c, hcs⟩
        · simp only [resolveParent_root hp hnil] at h
          exact absurd h (herr _ _)
        · rw [concat_eq_append] at hcs
          rw [resolveParent_ram hp hcs] at h
          cases hw : s.heap.walk 0 cs with
          | error e =>
            simp only [hw, Except.map] at h
            exact absurd h (herr _ _)
          | ok d =>
            simp only [hw, Except.map, FsState.create] at h
            cases hc : s.heap.create d c .file (fileMode mode) with
            | error e =>
              simp only [hc] at h
              exact absurd h (herr _ _)
            | ok r =>
              simp only [hc] at h
              exact .inr ⟨cs, c, d, r.1, r.2, hcs, hw, hc, Option.some.inj h⟩
      · exact absurd h (herr _ _)

end

/-! ## Results -/

section

variable {σ ω : Type} {F : Foreign σ ω} {s : FsState σ ω} {p : Bytes}

/-- On the path `p` the three calls act on what `lookup_path` sees. -/
structure SyscallsAgree (F : Foreign σ ω) (s : FsState σ ω) (p : Bytes) : Prop where
  /-- `sys_open` with `O_CREAT`: the path leads to the vnode behind the returned descriptor. -/
  openCreate : ∀ flags mode fd s', isCreate flags = true →
    s.sysOpen F (some p) flags mode = some (fd, s') → 0 ≤ fd →
    ∃ file, (s'.fds.getD [])[fd.toNat]? = some (some file) ∧ s'.lookupPath F p = .ok file.vnode
  /-- `sys_mkdir`: the path leads to the vnode created. -/
  mkdir : ∀ mode s', s.sysMkdir F (some p) mode = (0, s') →
    ∃ v, Created s s' v ∧ s'.lookupPath F p = .ok v
  /-- `sys_unlink`: the vnode removed is the one the path led to, and it leads nowhere any more. -/
  unlink : ∀ s', s.sysUnlink F (some p) = (0, s') →
    ∃ v, Removed s s' v ∧ s.lookupPath F p = .ok v ∧ s'.lookupPath F p = .error .notFound

/-- The root filesystem has a directory where the path's parent should be. -/
def ParentDir (h : Heap) (cs : List Bytes) : Prop :=
  ∃ l c d mode children, cs = l ++ [c] ∧ h.walk 0 l = .ok d ∧ h[d]? = some (.dir mode children)

/-- The root filesystem has a directory with children at the path. -/
def FullDir (h : Heap) (cs : List Bytes) : Prop :=
  ∃ x mode child children, h.walk 0 cs = .ok x ∧ h[x]? = some (.dir mode (child :: children))

theorem FsInv.walk_created (hi : FsInv s) {cs : List Bytes} {c : Bytes} {d x : Nat} {h : Heap}
    {nodeType : VNodeType} {mode : Nat} (hw : s.heap.walk 0 cs = .ok d)
    (hc : s.heap.create d c nodeType mode = .ok (x, h)) : h.walk 0 (cs ++ [c]) = .ok x :=
  Forest.walk_snoc.2 ⟨d, hi.forest.walk_create hc hw, hi.forest.lookup_create hc⟩

theorem FsInv.agree_root (hi : FsInv s) (hp : p.head? = some slash) (hroot : RootOnly s (comps p)) :
    SyscallsAgree F s p := by
  refine ⟨?_, ?_, ?_⟩
  · intro flags mode fd s' _ hopen hfd
    rcases hi.sysOpen_ok hp hopen hfd with ⟨v, hv, ho⟩ | ⟨cs, c, d, x, h, hcs, hw, hc, ho⟩
    · obtain ⟨⟨file, hfile, rfl⟩, hsame⟩ := openVnode_ok ho hfd
      exact ⟨file, hfile, (hsame p).trans hv⟩
    · obtain ⟨⟨file, hfile, hv⟩, hsame⟩ := openVnode_ok ho hfd
      have hi' : FsInv { s with heap := h } := hi.setHeap (hi.forest.create hc) s.world
      refine ⟨file, hfile, (hsame p).trans ?_⟩
      rw [hv, hi'.lookupPath_root hp hroot, hcs]
      exact congrArg (Except.map Obj.ram) (hi.walk_created hw hc)
  · intro mode s' hmk
    obtain ⟨cs, c, d, x, h, hcs, hw, hc, rfl⟩ := (hi.mkdir_zero hp).1 hmk
    have hi' : FsInv { s with heap := h } := hi.setHeap (hi.forest.create hc) s.world
    obtain ⟨-, -, -, -, -, -, hx, -⟩ := create_ok hc
    have hlen := length_create hc
    refine ⟨.ram x, ⟨x, rfl, by omega, by change x < h.length; omega⟩, ?_⟩
    rw [hi'.lookupPath_root hp hroot, hcs]
    exact congrArg (Except.map Obj.ram) (hi.walk_created hw hc)
  · intro s' hun
    obtain ⟨cs, c, d, h, hcs, hw, hu, rfl⟩ := (hi.unlink_zero hp).1 hun
    have hf' := hi.forest.unlink hu
    have hi' : FsInv { s with heap := h } := hi.setHeap hf' s.world
    obtain ⟨m, children, x, hd, hfind, -, -⟩ := unlink_ok hu
    have hl : s.heap.lookup d c = .ok x := by rw [lookup_dir hd, hfind]
    have hentry := Entry.of_lookup hl
    refine ⟨.ram x, ⟨x, d, c, rfl, hentry, ?_⟩, ?_, ?_⟩
    · exact fun he => ((hi.forest.entry_unlink hu).1 he).2 ⟨rfl, rfl⟩
    · rw [hi.lookupPath_root hp hroot, hcs, Forest.walk_snoc.2 ⟨d, hw, hl⟩]
      rfl
    · rw [hi'.lookupPath_root hp hroot, hcs]
      have hw' := hi.forest.walk_unlink hi.root hu hw
      have herr : h.walk 0 (cs ++ [c]) = .error .notFound := by
        unfold Heap.walk at hw' ⊢
        rw [foldlM_append, hw']
        simp [hi.forest.lookup_unlink hu, bind, Except.bind]
      rw [herr]
      rfl

theorem FsInv.agree_idle (hi : FsInv s) (hp : p.head? = some slash)
    (hidle : ¬ ParentDir s.heap (comps p) ∨ FullDir s.heap (comps p)) : SyscallsAgree F s p := by
  have hnocreate : ∀ {cs c d x h nodeType mode}, comps p = cs ++ [c] → s.heap.walk 0 cs = .ok d →
      s.heap.create d c nodeType mode ≠ .ok (x, h) := by
    intro cs c d x h nodeType mode hcs hw hc
    obtain ⟨m, children, node, hd, hfresh, -⟩ := create_ok hc
    rcases hidle with hno | ⟨y, my, e, es, hy, -⟩
    · exact hno ⟨cs, c, d, m, children, hcs, hw, hd⟩
    · rw [hcs] at hy
      obtain ⟨z, hz, hl⟩ := Forest.walk_snoc.1 hy
      obtain rfl : d = z := by simpa using hw.symm.trans hz
      obtain ⟨m', ch', hd', hmem⟩ := Entry.of_lookup hl
      obtain ⟨rfl, rfl⟩ := Node.dir.inj (Option.some.inj (hd.symm.trans hd'))
      exact hfresh y hmem
  refine ⟨?_, ?_, ?_⟩
  · intro flags mode fd s' _ hopen hfd
    rcases hi.sysOpen_ok hp hopen hfd with ⟨v, hv, ho⟩ | ⟨cs, c, d, x, h, hcs, hw, hc, -⟩
    · obtain ⟨⟨file, hfile, rfl⟩, hsame⟩ := openVnode_ok ho hfd
      exact ⟨file, hfile, (hsame p).trans hv⟩
    · exact absurd hc (hnocreate hcs hw)
  · intro mode s' hmk
    obtain ⟨cs, c, d, x, h, hcs, hw, hc, -⟩ := (hi.mkdir_zero hp).1 hmk
    exact absurd hc (hnocreate hcs hw)
  · intro s' hun
    obtain ⟨cs, c, d, h, hcs, hw, hu, -⟩ := (hi.unlink_zero hp).1 hun
    obtain ⟨m, children, x, hd, hfind, hempty, -⟩ := unlink_ok hu
    rcases hidle with hno | ⟨y, my, e, es, hy, hfull⟩
    · exact absurd ⟨cs, c, d, m, children, hcs, hw, hd⟩ hno
    · rw [hcs] at hy
      obtain ⟨z, hz, hl⟩ := Forest.walk_snoc.1 hy
      obtain rfl : d = z := by simpa using hw.symm.trans hz
      rw [lookup_dir hd, hfind] at hl
      obtain rfl : x = y := by simpa using hl
      exact absurd hfull (hempty my e es)

theorem FsInv.disagree (hi : FsInv s) (hp : p.head? = some slash) (hroot : ¬ RootOnly s (comps p))
    (hpar : ParentDir s.heap (comps p)) (hfull : ¬ FullDir s.heap (comps p)) :
    ¬ SyscallsAgree F s p := by
  intro hagree
  obtain ⟨cs, c, d, m, children, hcs, hw, hd⟩ := hpar
  have hplain : Plain c := comps_plain p c (by simp [hcs])
  cases hfind : children.find? (·.1 == c) with
  | none =>
    -- The name is free: `sys_mkdir` makes a directory the mount hides.
    have hany : ¬ children.any (·.1 == c) = true := by
      rw [any_eq_true]
      rintro ⟨q, hq, he⟩
      exact find?_eq_none.1 hfind q hq he
    have hc : ∃ h, s.heap.create d c .directory (fileMode 0) = .ok (s.heap.length, h) := by
      have hname : ¬ (c = [] ∨ slash ∈ c) := not_or.2 ⟨hplain.ne_nil, hplain.no_slash⟩
      simp [Heap.create, hd, hname, hany, newNode]
    obtain ⟨h, hc⟩ := hc
    obtain ⟨v, ⟨x, rfl, hge, hlt⟩, hl⟩ :=
      hagree.mkdir 0 _ ((hi.mkdir_zero hp).2 ⟨cs, c, d, _, h, hcs, hw, hc, rfl⟩)
    have hi' : FsInv { s with heap := h } := hi.setHeap (hi.forest.create hc) s.world
    have hx : x = s.heap.length := by
      have := length_create hc
      change x < h.length at hlt
      omega
    refine hi'.lookupPath_mounted hp hroot ?_ hl
    rw [hcs, hx]
    exact hi.walk_created hw hc
  | some q =>
    -- The name is taken by a file or an empty directory: `sys_unlink` removes it.
    obtain ⟨n, x⟩ := q
    have hl : s.heap.lookup d c = .ok x := by rw [lookup_dir hd, hfind]
    have hwx : s.heap.walk 0 (comps p) = .ok x := hcs ▸ Forest.walk_snoc.2 ⟨d, hw, hl⟩
    have hu : ∃ h, s.heap.unlink d c = .ok h := by
      unfold Heap.unlink
      simp only [hd, hfind]
      split
      · rename_i my e es hx
        exact absurd ⟨x, my, e, es, hwx, hx⟩ hfull
      · exact ⟨_, rfl⟩
    obtain ⟨h, hu⟩ := hu
    obtain ⟨v, ⟨y, d', c', rfl, hin, hout⟩, hv, -⟩ :=
      hagree.unlink _ ((hi.unlink_zero hp).2 ⟨cs, c, d, h, hcs, hw, hu, rfl⟩)
    have hdc : d' = d ∧ c' = c := by
      by_contra hne
      exact hout ((hi.forest.entry_unlink hu).2 ⟨hin, hne⟩)
    obtain ⟨rfl, rfl⟩ := hdc
    obtain rfl : y = x := by simpa using (hi.forest.lookup_iff.2 hin).symm.trans hl
    exact hi.lookupPath_mounted hp hroot hwx hv

/-- **When path-changing calls and lookups agree**, in every reachable state and for every absolute
path. -/
theorem syscalls_agree_iff (F : Foreign σ ω) (world : σ) (s : FsState σ ω)
    (h : Reach (FsStep F) (FsState.start world) s) (p : Bytes) (hp : p.head? = some slash) :
    SyscallsAgree F s p ↔
      RootOnly s (comps p) ∨ ¬ ParentDir s.heap (comps p) ∨ FullDir s.heap (comps p) := by
  have hi : FsInv s := Reach.invariant (FsInv.start world) FsInv.step h
  constructor
  · intro hagree
    by_contra hno
    rw [not_or, not_or, not_not] at hno
    exact hi.disagree hp hno.1 hno.2.1 hno.2.2 hagree
  · rintro (hroot | hidle)
    · exact hi.agree_root hp hroot
    · exact hi.agree_idle hp hidle

end

def noForeign : Foreign Unit Unit where
  lookup _ _ _ := .error .notFound
  create _ _ _ _ _ := .error .notSupported
  unlink _ _ _ := .error .notSupported
  truncate _ _ := ()
  nodeType _ _ := .file
  truncate_lookup _ _ := rfl

theorem reach_mnt : ∃ s : FsState Unit Unit, Reach (FsStep noForeign) (FsState.start ()) s ∧
    s = ⟨⟨some (.ram 0), [⟨[0x2f, 0x6d, 0x6e, 0x74], .ram 2⟩, ⟨[0x2f], .ram 0⟩]⟩,
      [.dir 0o755 [([0x6d, 0x6e, 0x74], 1)], .dir 0o755 [], .dir 0o755 []], (), none, [2, 0]⟩ := by
  have h1 : Reach (FsStep noForeign) (FsState.start ()) _ :=
    Reach.refl.tail (.create _ _ (.ram 0) _ [0x6d, 0x6e, 0x74] .directory 0o755 rfl)
  have h2 := h1.tail (.newRamFs _ 0o755)
  have h3 := h2.tail (.mount _ [0x2f, 0x6d, 0x6e, 0x74] (.ram 2) _
    (by rintro r ⟨⟩; exact mem_cons_self) rfl)
  exact ⟨_, h3, rfl⟩

theorem syscalls_agree_iff_outside : ∃ s : FsState Unit Unit,
    Reach (FsStep noForeign) (FsState.start ()) s ∧ s.vfs.mounts.length = 2 ∧
      SyscallsAgree noForeign s [0x2f, 0x61] := by
  obtain ⟨s, h, hs⟩ := reach_mnt
  refine ⟨s, h, by rw [hs]; rfl, (syscalls_agree_iff noForeign () s h [0x2f, 0x61] rfl).2 (.inl ?_)⟩
  rw [hs]
  unfold RootOnly
  decide

/-- **No vnode of a RamFs has two paths**: in every run, two walks from the roots that end at one
vnode start at the same root and follow the same names, and no directory leads to itself. -/
theorem ramfs_one_path {σ ω : Type} {F : Foreign σ ω} {world : σ} {s : FsState σ ω}
    (h : Reach (FsStep F) (FsState.start world) s) {r y : Nat} {cs : List Bytes} (hr : r ∈ s.roots)
    (hw : s.heap.walk r cs = .ok y) :
    (∀ r' ∈ s.roots, ∀ cs', s.heap.walk r' cs' = .ok y → r' = r ∧ cs' = cs) ∧
      ∀ cs', s.heap.walk y cs' = .ok y → cs' = [] := by
  have hf : Forest s.heap s.roots := (Reach.invariant (FsInv.start world) FsInv.step h).forest
  refine ⟨fun r' hr' cs' hw' => hf.walk_inj hr' hr hw' hw, fun cs' hw' => ?_⟩
  have hround : s.heap.walk r (cs ++ cs') = .ok y := by
    unfold Heap.walk at *
    rw [foldlM_append, hw]
    exact hw'
  exact append_right_eq_self.mp (hf.walk_inj hr hr hround hw).2

theorem ramfs_one_path_mnt : ∃ s : FsState Unit Unit,
    s.heap.walk 0 [[0x6d, 0x6e, 0x74]] = .ok 1 ∧
      ∀ r' ∈ s.roots, ∀ cs', s.heap.walk r' cs' = .ok 1 → r' = 0 ∧ cs' = [[0x6d, 0x6e, 0x74]] := by
  obtain ⟨s, h, hs⟩ := reach_mnt
  have hw : s.heap.walk 0 [[0x6d, 0x6e, 0x74]] = .ok 1 := by rw [hs]; rfl
  exact ⟨s, hw, (ramfs_one_path h (by rw [hs]; decide) hw).1⟩

/-- **`sys_mkdir("/mnt/a")` returns 0 and `lookup_path("/mnt/a")` does not find it**: the directory
was made in the root filesystem, below the mount. -/
theorem mkdir_under_mount :
    ∃ s : FsState Unit Unit, Reach (FsStep noForeign) (FsState.start ()) s ∧
      (s.sysMkdir noForeign (some [0x2f, 0x6d, 0x6e, 0x74, 0x2f, 0x61]) 0o755).1 = 0 ∧
      (s.sysMkdir noForeign (some [0x2f, 0x6d, 0x6e, 0x74, 0x2f, 0x61]) 0o755).2.lookupPath
        noForeign [0x2f, 0x6d, 0x6e, 0x74, 0x2f, 0x61] = .error .notFound ∧
      ¬ SyscallsAgree noForeign s [0x2f, 0x6d, 0x6e, 0x74, 0x2f, 0x61] := by
  obtain ⟨s, h, hs⟩ := reach_mnt
  have hzero : (s.sysMkdir noForeign (some [0x2f, 0x6d, 0x6e, 0x74, 0x2f, 0x61]) 0o755).1 = 0 := by
    rw [hs]
    rfl
  have hlost : (s.sysMkdir noForeign
      (some [0x2f, 0x6d, 0x6e, 0x74, 0x2f, 0x61]) 0o755).2.lookupPath noForeign
        [0x2f, 0x6d, 0x6e, 0x74, 0x2f, 0x61] = .error .notFound := by
    rw [hs]
    rfl
  refine ⟨s, h, hzero, hlost, fun hagree => ?_⟩
  obtain ⟨v, -, hv⟩ := hagree.mkdir 0o755 _ (Prod.ext hzero rfl)
  rw [hlost] at hv
  cases hv

end Kerners.Fs
