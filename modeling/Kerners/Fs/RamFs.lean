import Mathlib.Data.List.Induction
import Mathlib.Data.List.Nodup
import Kerners.Fs.Path

/-!
# RamFs (`src/fs/ramfs/mod.rs`)

The vnodes of all RamFs instances, as one list: the index of a vnode is its identity, what the
`Arc` is in the code. A directory holds its children in the order they were created. Names and
inode numbers kept inside the vnodes are left out: nothing reads them.
-/

namespace Kerners.Fs

open Lib List

inductive VNodeType where
  | file
  | directory
  | symlink
  | blockDevice
  | charDevice
  | fifo
  | socket
  deriving DecidableEq

/-- `RamFsFile` and `RamFsDir`. -/
inductive Node where
  | file (mode : Nat) (data : Bytes)
  | dir (mode : Nat) (children : List (Bytes × Nat))
  deriving DecidableEq

/-- `FileMode::new`. -/
def fileMode (mode : Nat) : Nat := mode % 4096

abbrev Heap := List Node

def Node.nodeType : Node → VNodeType
  | .file _ _ => .file
  | .dir _ _ => .directory

/-- The vnode `create` makes. -/
def newNode (mode : Nat) : VNodeType → Option Node
  | .file => some (.file mode [])
  | .directory => some (.dir mode [])
  | _ => none

namespace Heap

variable (h : Heap)

def lookup (d : Nat) (name : Bytes) : Except VfsError Nat :=
  match h[d]? with
  | some (.dir _ children) =>
    match children.find? (·.1 == name) with
    | some child => .ok child.2
    | none => .error .notFound
  | _ => .error .notADirectory

/-- `VNode::create`: the new vnode and the changed vnodes. -/
def create (d : Nat) (name : Bytes) (nodeType : VNodeType) (mode : Nat) :
    Except VfsError (Nat × Heap) :=
  match h[d]? with
  | some (.dir m children) =>
    if name = [] ∨ slash ∈ name then .error .invalidArgument
    else if children.any (·.1 == name) = true then .error .alreadyExists
    else
      match newNode mode nodeType with
      | some node =>
        .ok (h.length, h.set d (.dir m (children ++ [(name, h.length)])) ++ [node])
      | none => .error .notSupported
  | _ => .error .notADirectory

/-- `VNode::unlink`. An empty directory is removed as well. -/
def unlink (d : Nat) (name : Bytes) : Except VfsError Heap :=
  match h[d]? with
  | some (.dir m children) =>
    match children.find? (·.1 == name) with
    | none => .error .notFound
    | some child =>
      match h[child.2]? with
      | some (.dir _ (_ :: _)) => .error .directoryNotEmpty
      | _ => .ok (h.set d (.dir m (children.eraseP (·.1 == name))))
  | _ => .error .notADirectory

/-- A file's contents replaced, as `write` and `truncate` do. -/
def setData (x : Nat) (data : Bytes) : Heap :=
  h.modify x fun
    | .file mode _ => .file mode data
    | node => node

/-- The loop of `path::resolve`. -/
def walk (root : Nat) (cs : List Bytes) : Except VfsError Nat := cs.foldlM h.lookup root

end Heap

/-! ## Entries -/

/-- Directory `d` has the child `x` under the name `name`. -/
def Entry (h : Heap) (d : Nat) (name : Bytes) (x : Nat) : Prop :=
  ∃ mode children, h[d]? = some (.dir mode children) ∧ (name, x) ∈ children

section

variable {h : Heap} {d x : Nat} {name : Bytes}

theorem lookup_dir {mode : Nat} {children : List (Bytes × Nat)}
    (hd : h[d]? = some (.dir mode children)) :
    h.lookup d name =
      match children.find? (·.1 == name) with
      | some child => .ok child.2
      | none => .error .notFound := by
  simp only [Heap.lookup, hd]

theorem Entry.of_lookup (hl : h.lookup d name = .ok x) : Entry h d name x := by
  unfold Heap.lookup at hl
  split at hl
  · rename_i mode children hd
    split at hl
    · rename_i child hf
      have hname : child.1 = name := by simpa using find?_some hf
      injection hl with hl
      refine ⟨mode, children, hd, ?_⟩
      rw [← hname, ← hl]
      exact mem_of_find?_eq_some hf
    · simp at hl
  · simp at hl

theorem find?_of_mem {l : List (Bytes × Nat)} (hn : (l.map Prod.fst).Nodup)
    (hm : (name, x) ∈ l) : l.find? (·.1 == name) = some (name, x) := by
  induction l with
  | nil => simp at hm
  | cons p l ih =>
    rw [map_cons, nodup_cons] at hn
    rcases mem_cons.1 hm with rfl | hm
    · simp
    · have hne : p.1 ≠ name := fun he => hn.1 (mem_map.2 ⟨_, hm, he.symm⟩)
      rw [find?_cons_of_neg (by simpa using hne), ih hn.2 hm]

end

structure Forest (h : Heap) (roots : List Nat) : Prop where
  bound : ∀ d name x, Entry h d name x → x < h.length
  names : ∀ (d mode : Nat) (children : List (Bytes × Nat)),
    h[d]? = some (.dir mode children) → (children.map Prod.fst).Nodup
  unique : ∀ d d' name name' x, Entry h d name x → Entry h d' name' x → d = d' ∧ name = name'
  root_lt : ∀ r ∈ roots, r < h.length
  root_top : ∀ r ∈ roots, ∀ d name, ¬ Entry h d name r

namespace Forest

variable {h : Heap} {roots : List Nat} {d x : Nat} {name : Bytes}

theorem lookup_iff (hf : Forest h roots) : h.lookup d name = .ok x ↔ Entry h d name x := by
  refine ⟨Entry.of_lookup, ?_⟩
  rintro ⟨mode, children, hd, hm⟩
  rw [lookup_dir hd, find?_of_mem (hf.names d mode children hd) hm]

theorem walk_snoc {r y : Nat} {cs : List Bytes} {c : Bytes} :
    h.walk r (cs ++ [c]) = .ok y ↔ ∃ z, h.walk r cs = .ok z ∧ h.lookup z c = .ok y := by
  unfold Heap.walk
  rw [foldlM_append]
  cases cs.foldlM h.lookup r with
  | error e => simp [bind, Except.bind]
  | ok z =>
    simp only [bind, Except.bind, foldlM_cons, foldlM_nil, pure, Except.pure,
      Except.ok.injEq, exists_eq_left']
    cases h.lookup z c <;> simp

theorem walk_inj (hf : Forest h roots) {r r' y : Nat} (hr : r ∈ roots) (hr' : r' ∈ roots)
    {cs cs' : List Bytes} (hw : h.walk r cs = .ok y) (hw' : h.walk r' cs' = .ok y) :
    r = r' ∧ cs = cs' := by
  induction cs using List.reverseRecOn generalizing cs' y with
  | nil =>
    have hy : r = y := by simpa [Heap.walk, pure, Except.pure] using hw
    subst hy
    cases cs' using List.reverseRecOn with
    | nil => exact ⟨by simpa [Heap.walk, pure, Except.pure, eq_comm] using hw', rfl⟩
    | append_singleton cs' c' =>
      obtain ⟨z, -, hl⟩ := walk_snoc.1 hw'
      exact absurd (Entry.of_lookup hl) (hf.root_top r hr z c')
  | append_singleton cs c ih =>
    obtain ⟨z, hz, hl⟩ := walk_snoc.1 hw
    cases cs' using List.reverseRecOn with
    | nil =>
      have hy : r' = y := by simpa [Heap.walk, pure, Except.pure] using hw'
      subst hy
      exact absurd (Entry.of_lookup hl) (hf.root_top r' hr' z c)
    | append_singleton cs' c' =>
      obtain ⟨z', hz', hl'⟩ := walk_snoc.1 hw'
      obtain ⟨rfl, rfl⟩ := hf.unique z z' c c' y (Entry.of_lookup hl) (Entry.of_lookup hl')
      obtain ⟨rfl, rfl⟩ := ih hz hz'
      exact ⟨rfl, rfl⟩

end Forest

theorem walk_mono {h h' : Heap} {r y : Nat} {cs : List Bytes}
    (hsub : ∀ d name x, h.lookup d name = .ok x → h'.lookup d name = .ok x)
    (hw : h.walk r cs = .ok y) : h'.walk r cs = .ok y := by
  induction cs using List.reverseRecOn generalizing y with
  | nil => exact hw
  | append_singleton cs c ih =>
    obtain ⟨z, hz, hl⟩ := Forest.walk_snoc.1 hw
    exact Forest.walk_snoc.2 ⟨z, ih hz, hsub z c y hl⟩

/-! ## What the calls do -/

variable {h h' : Heap} {roots : List Nat} {d x mode y : Nat} {name : Bytes} {nodeType : VNodeType}

theorem create_ok (hc : h.create d name nodeType mode = .ok (x, h')) : ∃ m children node, h[d]? =
    some (.dir m children) ∧ (∀ y, (name, y) ∉ children) ∧ newNode mode nodeType = some node ∧ x =
    h.length ∧ h' = h.set d (.dir m (children ++ [(name, h.length)])) ++ [node] := by
  unfold Heap.create at hc
  split at hc
  · rename_i m children hd
    split at hc
    · simp at hc
    · split at hc
      · simp at hc
      · rename_i hany
        split at hc
        · rename_i node hnode
          injection hc with hc
          obtain ⟨rfl, rfl⟩ := Prod.mk.inj hc
          refine ⟨m, children, node, hd, fun y hy => hany ?_, hnode, rfl, rfl⟩
          exact any_eq_true.2 ⟨_, hy, by simp⟩
        · simp at hc
  · simp at hc

theorem unlink_ok (hu : h.unlink d name = .ok h') : ∃ m children y, h[d]? = some (.dir m children) ∧
    children.find? (·.1 == name) = some (name, y) ∧ (∀ m' e es, h[y]? ≠ some (.dir m' (e :: es))) ∧
    h' = h.set d (.dir m (children.eraseP (·.1 == name))) := by
  unfold Heap.unlink at hu
  split at hu
  · rename_i m children hd
    split at hu
    · simp at hu
    · rename_i child hfind
      have hname : child.1 = name := by simpa using find?_some hfind
      obtain ⟨n, y⟩ := child
      simp only at hname
      subst hname
      split at hu
      · simp at hu
      · rename_i hne
        injection hu with hu
        exact ⟨m, children, y, hd, hfind, fun m' e es he => hne m' e es he, hu.symm⟩
  · simp at hu

theorem newNode_entries {node : Node} (hn : newNode mode nodeType = some node) {m : Nat}
    {children : List (Bytes × Nat)} (hd : node = .dir m children) : children = [] := by
  subst hd
  cases nodeType <;> simp_all [newNode]

theorem entry_create (hc : h.create d name nodeType mode = .ok (x, h')) {d' : Nat} {name' : Bytes} :
    Entry h' d' name' y ↔ Entry h d' name' y ∨ d' = d ∧ name' = name ∧ y = h.length := by
  obtain ⟨m, children, node, hd, -, hnode, -, rfl⟩ := create_ok hc
  have hlt : d < h.length := (List.getElem?_eq_some_iff.1 hd).1
  unfold Entry
  by_cases hlast : d' < h.length
  · rw [getElem?_append_left (by simpa using hlast), getElem?_set]
    by_cases he : d = d'
    · subst he
      rw [if_pos rfl, if_pos hlt, hd]
      constructor
      · rintro ⟨_, _, ⟨⟩, hm⟩
        rcases mem_append.1 hm with hm | hm
        · exact .inl ⟨m, children, rfl, hm⟩
        · obtain ⟨rfl, rfl⟩ := Prod.mk.inj (mem_singleton.1 hm)
          exact .inr ⟨rfl, rfl, rfl⟩
      · rintro (⟨_, _, ⟨⟩, hm⟩ | ⟨-, rfl, rfl⟩)
        · exact ⟨m, _, rfl, mem_append_left _ hm⟩
        · exact ⟨m, _, rfl, by simp⟩
    · rw [if_neg he]
      simp [Ne.symm he]
  · have hne : d' ≠ d := by omega
    have hnone : h[d']? = none := getElem?_eq_none (by omega)
    simp only [hnone, hne, false_and, or_false, reduceCtorEq, exists_const, iff_false]
    rintro ⟨m', ch, hget, hm⟩
    rw [getElem?_append_right (by simpa using hlast)] at hget
    have hnd := mem_singleton.1 (mem_of_getElem? hget)
    simp [newNode_entries hnode hnd.symm] at hm

theorem entry_eraseP {l : List (Bytes × Nat)} (hn : (l.map Prod.fst).Nodup) {p : Bytes × Nat} :
    p ∈ l.eraseP (·.1 == name) ↔ p ∈ l ∧ p.1 ≠ name := by
  induction l with
  | nil => simp
  | cons q l ih =>
    rw [map_cons, nodup_cons] at hn
    by_cases hq : q.1 = name
    · rw [eraseP_cons_of_pos (by simpa using hq)]
      constructor
      · intro hp
        exact ⟨mem_cons_of_mem _ hp,
          fun he => hn.1 (mem_map.2 ⟨p, hp, he.trans hq.symm⟩)⟩
      · rintro ⟨hp, hne⟩
        rcases mem_cons.1 hp with rfl | hp
        · exact absurd hq hne
        · exact hp
    · rw [eraseP_cons_of_neg (by simpa using hq), mem_cons, mem_cons, ih hn.2]
      constructor
      · rintro (rfl | ⟨hp, hne⟩)
        · exact ⟨.inl rfl, hq⟩
        · exact ⟨.inr hp, hne⟩
      · rintro ⟨rfl | hp, hne⟩
        · exact .inl rfl
        · exact .inr ⟨hp, hne⟩

theorem Forest.entry_unlink (hf : Forest h roots) (hu : h.unlink d name = .ok h') {d' : Nat}
    {name' : Bytes} : Entry h' d' name' y ↔ Entry h d' name' y ∧ ¬ (d' = d ∧ name' = name) := by
  obtain ⟨m, children, z, hd, hfind, -, rfl⟩ := unlink_ok hu
  have hlt : d < h.length := (List.getElem?_eq_some_iff.1 hd).1
  have hnames := hf.names d m children hd
  unfold Entry
  rw [getElem?_set]
  by_cases he : d = d'
  · subst he
    rw [if_pos rfl, if_pos hlt, hd]
    constructor
    · rintro ⟨_, _, ⟨⟩, hm⟩
      obtain ⟨hm, hne⟩ := (entry_eraseP hnames).1 hm
      exact ⟨⟨m, children, rfl, hm⟩, fun h => hne h.2⟩
    · rintro ⟨⟨_, _, ⟨⟩, hm⟩, hne⟩
      exact ⟨m, _, rfl, (entry_eraseP hnames).2 ⟨hm, fun h => hne ⟨rfl, h⟩⟩⟩
  · rw [if_neg he]
    simp [Ne.symm he]

theorem length_create (hc : h.create d name nodeType mode = .ok (x, h')) :
    h'.length = h.length + 1 := by
  obtain ⟨m, children, node, -, -, -, -, rfl⟩ := create_ok hc
  simp

theorem length_unlink (hu : h.unlink d name = .ok h') : h'.length = h.length := by
  obtain ⟨m, children, y, -, -, -, rfl⟩ := unlink_ok hu
  simp

theorem Forest.create {nodeType : VNodeType} {mode : Nat} (hf : Forest h roots)
    (hc : h.create d name nodeType mode = .ok (x, h')) : Forest h' roots := by
  have hlen := length_create hc
  refine ⟨?_, ?_, ?_, ?_, ?_⟩
  · intro d' name' y he
    rcases (entry_create hc).1 he with he | ⟨-, -, rfl⟩
    · have := hf.bound d' name' y he
      omega
    · omega
  · obtain ⟨m, children, node, hd, hfresh, hnode, -, rfl⟩ := create_ok hc
    intro d' m' ch hget
    by_cases hlast : d' < h.length
    · rw [getElem?_append_left (by simpa using hlast), getElem?_set] at hget
      split at hget
      · rename_i he
        rw [if_pos (he ▸ hlast)] at hget
        obtain ⟨rfl, rfl⟩ := Node.dir.inj (Option.some.inj hget)
        rw [map_append]
        refine nodup_append.2 ⟨hf.names d m children hd, nodup_singleton _, ?_⟩
        rintro n hn _ hn' rfl
        obtain ⟨⟨n, y⟩, hp, rfl⟩ := mem_map.1 hn
        rw [map_singleton, mem_singleton] at hn'
        have hname : n = name := hn'
        exact hfresh y (hname ▸ hp)
      · exact hf.names d' m' ch hget
    · rw [getElem?_append_right (by simpa using hlast)] at hget
      have hnd := mem_singleton.1 (mem_of_getElem? hget)
      rw [newNode_entries hnode hnd.symm]
      exact nodup_nil
  · intro d1 d2 n1 n2 y h1 h2
    rcases (entry_create hc).1 h1 with h1 | ⟨rfl, rfl, rfl⟩ <;>
      rcases (entry_create hc).1 h2 with h2 | ⟨rfl, rfl, hy⟩
    · exact hf.unique d1 d2 n1 n2 y h1 h2
    · have := hf.bound d1 n1 y h1
      omega
    · have := hf.bound d2 n2 _ h2
      omega
    · exact ⟨rfl, rfl⟩
  · intro r hr
    have := hf.root_lt r hr
    omega
  · intro r hr d' name' he
    rcases (entry_create hc).1 he with he | ⟨-, -, rfl⟩
    · exact hf.root_top r hr d' name' he
    · exact absurd (hf.root_lt _ hr) (Nat.lt_irrefl _)

theorem Forest.unlink (hf : Forest h roots) (hu : h.unlink d name = .ok h') : Forest h' roots := by
  have hlen := length_unlink hu
  have hsub : ∀ {d' name' y}, Entry h' d' name' y → Entry h d' name' y :=
    fun he => ((hf.entry_unlink hu).1 he).1
  refine ⟨?_, ?_, ?_, ?_, ?_⟩
  · intro d' name' y he
    rw [hlen]
    exact hf.bound d' name' y (hsub he)
  · obtain ⟨m, children, y, hd, -, -, rfl⟩ := unlink_ok hu
    intro d' m' ch hget
    rw [getElem?_set] at hget
    split at hget
    · split at hget
      · obtain ⟨rfl, rfl⟩ := Node.dir.inj (Option.some.inj hget)
        exact (hf.names d m children hd).sublist (eraseP_sublist.map _)
      · simp at hget
    · exact hf.names d' m' ch hget
  · exact fun d1 d2 n1 n2 y h1 h2 => hf.unique d1 d2 n1 n2 y (hsub h1) (hsub h2)
  · intro r hr
    rw [hlen]
    exact hf.root_lt r hr
  · exact fun r hr d' name' he => hf.root_top r hr d' name' (hsub he)

theorem Forest.walk_create {r : Nat} {cs : List Bytes} (hf : Forest h roots)
    (hc : h.create d name nodeType mode = .ok (x, h')) (hw : h.walk r cs = .ok y) :
    h'.walk r cs = .ok y := by
  refine walk_mono (fun d' name' z hl => ?_) hw
  exact (hf.create hc).lookup_iff.2 ((entry_create hc).2 (.inl (Entry.of_lookup hl)))

theorem Forest.lookup_create (hf : Forest h roots)
    (hc : h.create d name nodeType mode = .ok (x, h')) : h'.lookup d name = .ok x := by
  obtain ⟨-, -, -, -, -, -, hx, -⟩ := create_ok hc
  exact (hf.create hc).lookup_iff.2 ((entry_create hc).2 (.inr ⟨rfl, rfl, hx⟩))

theorem Forest.walk_unlink {r : Nat} {cs : List Bytes} (hf : Forest h roots) (hr : r ∈ roots)
    (hu : h.unlink d name = .ok h') (hw : h.walk r cs = .ok d) : h'.walk r cs = .ok d := by
  suffices hpre : ∀ cs1 cs2 z, cs = cs1 ++ cs2 → h.walk r cs1 = .ok z → h'.walk r cs1 = .ok z from
    hpre cs [] d (append_nil _).symm hw
  intro cs1
  induction cs1 using List.reverseRecOn with
  | nil => exact fun cs2 z _ hz => hz
  | append_singleton cs1 c ih =>
    intro cs2 z hcs hz
    obtain ⟨u, hu1, hl⟩ := walk_snoc.1 hz
    have hu2 := ih (c :: cs2) u (by simp [hcs]) hu1
    refine walk_snoc.2 ⟨u, hu2, (hf.unlink hu).lookup_iff.2 ((hf.entry_unlink hu).2 ?_)⟩
    refine ⟨Entry.of_lookup hl, ?_⟩
    rintro ⟨rfl, -⟩
    obtain ⟨-, hsame⟩ := hf.walk_inj hr hr hu1 hw
    have := congrArg List.length (hsame.trans hcs)
    simp at this

theorem Forest.lookup_unlink (hf : Forest h roots) (hu : h.unlink d name = .ok h') :
    h'.lookup d name = .error .notFound := by
  obtain ⟨m, children, y, hd, -, -, rfl⟩ := unlink_ok hu
  have hlt : d < h.length := (List.getElem?_eq_some_iff.1 hd).1
  have hget : (h.set d (.dir m (children.eraseP (·.1 == name))))[d]? =
      some (.dir m (children.eraseP (·.1 == name))) := by
    rw [getElem?_set_self hlt]
  have hnone : (children.eraseP (·.1 == name)).find? (·.1 == name) = none := by
    refine find?_eq_none.2 fun p hp => ?_
    have := ((entry_eraseP (hf.names d m children hd)).1 hp).2
    simpa using this
  rw [lookup_dir hget, hnone]

theorem lookup_setData (x : Nat) (data : Bytes) (d : Nat) (name : Bytes) :
    (h.setData x data).lookup d name = h.lookup d name := by
  unfold Heap.lookup Heap.setData
  rw [getElem?_modify]
  cases h[d]? with
  | none => simp
  | some node =>
    by_cases he : x = d
    · cases node <;> simp [he]
    · simp [he]

theorem entry_setData {x : Nat} {data : Bytes} {d : Nat} {name : Bytes} :
    Entry (h.setData x data) d name y ↔ Entry h d name y := by
  unfold Entry Heap.setData
  rw [getElem?_modify]
  cases h[d]? with
  | none => simp
  | some node =>
    by_cases he : x = d
    · cases node <;> simp [he]
    · simp [he]

theorem Forest.setData (hf : Forest h roots) (x : Nat) (data : Bytes) :
    Forest (h.setData x data) roots := by
  have hlen : (h.setData x data).length = h.length := by simp [Heap.setData]
  refine ⟨?_, ?_, ?_, ?_, ?_⟩
  · intro d name y he
    rw [hlen]
    exact hf.bound d name y (entry_setData.1 he)
  · intro d mode children hget
    refine hf.names d mode children ?_
    unfold Heap.setData at hget
    rw [getElem?_modify] at hget
    cases hd : h[d]? with
    | none => simp [hd] at hget
    | some node =>
      by_cases he : x = d
      · cases node <;> simp_all
      · simpa [he, hd] using hget
  · exact fun d1 d2 n1 n2 y h1 h2 =>
      hf.unique d1 d2 n1 n2 y (entry_setData.1 h1) (entry_setData.1 h2)
  · intro r hr
    rw [hlen]
    exact hf.root_lt r hr
  · exact fun r hr d name he => hf.root_top r hr d name (entry_setData.1 he)

theorem Forest.newRoot (hf : Forest h roots) (mode : Nat) :
    Forest (h ++ [.dir mode []]) (h.length :: roots) := by
  have hentry : ∀ {d name y}, Entry (h ++ [.dir mode []]) d name y → Entry h d name y := by
    rintro d name y ⟨m, ch, hget, hm⟩
    by_cases hlt : d < h.length
    · rw [getElem?_append_left hlt] at hget
      exact ⟨m, ch, hget, hm⟩
    · rw [getElem?_append_right (by omega)] at hget
      obtain ⟨-, rfl⟩ := Node.dir.inj (mem_singleton.1 (mem_of_getElem? hget))
      simp at hm
  refine ⟨?_, ?_, ?_, ?_, ?_⟩
  · intro d name y he
    have := hf.bound d name y (hentry he)
    simp only [length_append, length_singleton]
    omega
  · intro d m ch hget
    by_cases hlt : d < h.length
    · rw [getElem?_append_left hlt] at hget
      exact hf.names d m ch hget
    · rw [getElem?_append_right (by omega)] at hget
      obtain ⟨-, rfl⟩ := Node.dir.inj (mem_singleton.1 (mem_of_getElem? hget))
      exact nodup_nil
  · exact fun d1 d2 n1 n2 y h1 h2 => hf.unique d1 d2 n1 n2 y (hentry h1) (hentry h2)
  · intro r hr
    simp only [length_append, length_singleton]
    rcases mem_cons.1 hr with rfl | hr
    · omega
    · have := hf.root_lt r hr
      omega
  · intro r hr d name he
    rcases mem_cons.1 hr with rfl | hr
    · exact absurd (hf.bound d name _ (hentry he)) (Nat.lt_irrefl _)
    · exact hf.root_top r hr d name (hentry he)

end Kerners.Fs
