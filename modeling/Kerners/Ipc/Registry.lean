import Kerners.Lib.Linear
import Kerners.Ipc.MessageQueue

/-!
# The registry of named queues (`src/ipc/message_queue.rs`, `mq_open`, `mq_unlink`)

`MESSAGE_QUEUES` is a list of names with their queues under a reader-writer lock. `mq_open` looks the
name up under the read lock and, if it is absent and may be created, looks again and creates it under
the write lock; `mq_unlink` removes it under the write lock.

* The model has one process for each call, with its operation `op i`. A critical section is one step;
  so are the invocation and the return, which the history records.
* A queue is a leaked box that is never freed: queues are numbered in the order of their creation.
* A call takes effect in its last critical section: the lookup if that decides the result, else the
  section under the write lock.
-/

namespace Kerners.Ipc

open Lib Function List

/-! ## The critical sections -/

inductive RegistryOp where
  | mqOpen (name : String) (create : Bool)
  | mqUnlink (name : String)
  deriving DecidableEq

inductive RegistryResult where
  | opened (q : Nat)
  | unlinked
  | failed (e : MessageQueueError)
  deriving DecidableEq

/-- `MESSAGE_QUEUES`, and how many queues have been made. -/
structure Queues where
  list : Option (List (String × Nat))
  leaked : Nat
  deriving DecidableEq

/-- `list.iter().find(|(n, _)| n == name)`. -/
def findQueue (list : List (String × Nat)) (name : String) : Option Nat :=
  (list.find? fun e => e.1 == name).map Prod.snd

def Queues.find (s : Queues) (name : String) : Option Nat := s.list.bind (findQueue · name)

/-- The section of `mq_open` under the read lock; `none` if the call goes on to create the queue. -/
def Queues.look (s : Queues) (name : String) (create : Bool) : Option RegistryResult :=
  match s.find name with
  | some q => some (.opened q)
  | none => if create then none else some (.failed .empty)

/-- The section of `mq_open` under the write lock. -/
def Queues.create (s : Queues) (name : String) : RegistryResult × Queues :=
  let list := s.list.getD []
  match findQueue list name with
  | some q => (.opened q, { s with list := some list })
  | none => (.opened s.leaked, ⟨some (list ++ [(name, s.leaked)]), s.leaked + 1⟩)

/-- `mq_unlink`. -/
def Queues.unlink (s : Queues) (name : String) : RegistryResult × Queues :=
  match s.list with
  | none => (.failed .empty, s)
  | some list =>
    match list.findIdx? fun e => e.1 == name with
    | some pos => (.unlinked, { s with list := some (list.eraseIdx pos) })
    | none => (.failed .empty, s)

def Queues.names (s : Queues) : List String := (s.list.getD []).map Prod.fst

/-! ## The specification -/

structure QueueMap where
  queue : String → Option Nat
  made : Set Nat

inductive QueueMap.Does {ι : Type*} (op : ι → RegistryOp) :
    QueueMap → ι → RegistryResult → QueueMap → Prop
  | found {m i name create q} (hop : op i = .mqOpen name create) (hq : m.queue name = some q) :
    Does op m i (.opened q) m
  | fresh {m i name q} (hop : op i = .mqOpen name true) (hnone : m.queue name = none)
    (hnew : q ∉ m.made) :
    Does op m i (.opened q) ⟨update m.queue name (some q), insert q m.made⟩
  | absent {m i name} (hop : op i = .mqOpen name false) (hnone : m.queue name = none) :
    Does op m i (.failed .empty) m
  | removed {m i name q} (hop : op i = .mqUnlink name) (hq : m.queue name = some q) :
    Does op m i .unlinked ⟨update m.queue name none, m.made⟩
  | missing {m i name} (hop : op i = .mqUnlink name) (hnone : m.queue name = none) :
    Does op m i (.failed .empty) m

def Queues.toMap (s : Queues) : QueueMap := ⟨s.find, {q | q < s.leaked}⟩

/-! ## The sections meet the specification -/

open Queues

section

variable {ι : Type*} {op : ι → RegistryOp} {i : ι} {s : Queues} {name : String} {r : RegistryResult}
  {list : List (String × Nat)}

theorem findQueue_append (list : List (String × Nat)) (name : String) (q : Nat)
    (h : findQueue list name = none) (n : String) :
    findQueue (list ++ [(name, q)]) n = if n = name then some q else findQueue list n := by
  unfold findQueue at h ⊢
  rw [find?_append]
  by_cases hn : n = name
  · subst hn
    rw [Option.map_eq_none_iff.mp h]
    simp
  · have hne : ¬ name = n := fun e => hn e.symm
    rw [if_neg hn]
    cases list.find? fun e => e.1 == n with
    | none => simp [hne]
    | some e => rfl

theorem findQueue_none_iff : findQueue list name = none ↔ name ∉ list.map Prod.fst := by
  unfold findQueue
  rw [Option.map_eq_none_iff, find?_eq_none]
  simp only [mem_map, not_exists, not_and, beq_iff_eq]

theorem findQueue_eraseP (hnd : (list.map Prod.fst).Nodup) (n : String) :
    findQueue (list.eraseP fun e => e.1 == name) n =
      if n = name then none else findQueue list n := by
  induction list with
  | nil => simp [findQueue]
  | cons e list ih =>
    rw [map_cons, nodup_cons] at hnd
    by_cases he : e.1 = name
    · rw [eraseP_cons_of_pos (by simpa using he)]
      by_cases hn : n = name
      · rw [if_pos hn, findQueue_none_iff, hn, ← he]
        exact hnd.1
      · have hen : ¬ e.1 = n := fun h => hn (h.symm.trans he)
        rw [if_neg hn]
        simp [findQueue, hen]
    · rw [eraseP_cons_of_neg (by simpa using he)]
      have hrest := ih hnd.2
      unfold findQueue at hrest ⊢
      by_cases hen : e.1 = n
      · have hn : ¬ n = name := fun h => he (hen.trans h)
        simp [hen, hn]
      · simpa [hen] using hrest

theorem Queues.find_eq (s : Queues) (name : String) :
    s.find name = findQueue (s.list.getD []) name := by
  unfold find
  cases s.list <;> rfl

theorem Queues.look_does {create : Bool} (hop : op i = .mqOpen name create)
    (h : s.look name create = some r) : QueueMap.Does op s.toMap i r s.toMap := by
  unfold look at h
  cases hfind : s.find name with
  | some q =>
    rw [hfind] at h
    obtain rfl := Option.some.inj h
    exact .found hop hfind
  | none =>
    cases create with
    | true =>
      rw [hfind] at h
      cases h
    | false =>
      rw [hfind] at h
      obtain rfl := Option.some.inj h
      exact .absent hop hfind

theorem Queues.create_of_look {create : Bool} (h : s.look name create = none) : create = true := by
  unfold look at h
  cases create with
  | true => rfl
  | false => cases hfind : s.find name <;> rw [hfind] at h <;> cases h

theorem Queues.create_does (hop : op i = .mqOpen name true) :
    QueueMap.Does op s.toMap i (s.create name).1 (s.create name).2.toMap := by
  unfold create
  simp only
  cases hfind : findQueue (s.list.getD []) name with
  | some q =>
    have hmap : toMap { s with list := some (s.list.getD []) } = s.toMap := by
      unfold toMap
      congr 1
      funext n
      rw [s.find_eq]
      rfl
    simp only
    rw [hmap]
    exact .found hop ((s.find_eq name).trans hfind)
  | none =>
    have hmap : toMap ⟨some (s.list.getD [] ++ [(name, s.leaked)]), s.leaked + 1⟩ =
        ⟨update s.toMap.queue name (some s.leaked), insert s.leaked s.toMap.made⟩ := by
      unfold toMap
      congr 1
      · funext n
        rw [update_apply]
        change findQueue (s.list.getD [] ++ [(name, s.leaked)]) n = _
        rw [findQueue_append _ name s.leaked hfind n, ← s.find_eq n]
      · ext q
        change q < s.leaked + 1 ↔ q = s.leaked ∨ q < s.leaked
        omega
    simp only
    rw [hmap]
    refine .fresh hop ((s.find_eq name).trans hfind) ?_
    exact Nat.lt_irrefl s.leaked

theorem Queues.create_names (h : s.names.Nodup) (name : String) :
    (s.create name).2.names.Nodup := by
  unfold create
  simp only
  cases hfind : findQueue (s.list.getD []) name with
  | some q => exact h
  | none =>
    change ((s.list.getD [] ++ [(name, s.leaked)]).map Prod.fst).Nodup
    rw [map_append, map_singleton]
    refine nodup_append.mpr ⟨h, by simp, ?_⟩
    intro x hx y hy hxy
    obtain rfl := mem_singleton.mp hy
    exact findQueue_none_iff.mp hfind (hxy ▸ hx)

theorem Queues.unlink_eq (hlist : s.list = some list) :
    s.unlink name =
      if (findQueue list name).isSome then
        (.unlinked, { s with list := some (list.eraseP fun e => e.1 == name) })
      else (.failed .empty, s) := by
  unfold unlink
  rw [hlist]
  simp only
  have hmem : (findQueue list name).isSome = (list.findIdx? fun e => e.1 == name).isSome := by
    rw [Bool.eq_iff_iff, findQueue, Option.isSome_map, find?_isSome, findIdx?_isSome, any_eq_true]
  rw [hmem, eraseP_eq_eraseIdx]
  cases list.findIdx? fun e => e.1 == name <;> rfl

theorem Queues.unlink_does (hnd : s.names.Nodup) (hop : op i = .mqUnlink name) :
    QueueMap.Does op s.toMap i (s.unlink name).1 (s.unlink name).2.toMap := by
  cases hlist : s.list with
  | none =>
    have hnone : s.find name = none := by rw [find, hlist]; rfl
    have hunlink : s.unlink name = (.failed .empty, s) := by rw [unlink, hlist]
    rw [hunlink]
    exact .missing hop hnone
  | some list =>
    have hfind : ∀ n, s.find n = findQueue list n := by
      intro n
      rw [find, hlist]
      rfl
    have hnames : (list.map Prod.fst).Nodup := by
      rwa [names, hlist] at hnd
    rw [unlink_eq hlist]
    cases hq : findQueue list name with
    | none => exact .missing hop ((hfind name).trans hq)
    | some q =>
      have hmap : toMap { s with list := some (list.eraseP fun e => e.1 == name) } =
          ⟨update s.toMap.queue name none, s.toMap.made⟩ := by
        unfold toMap
        congr 1
        funext n
        rw [update_apply]
        change findQueue (list.eraseP fun e => e.1 == name) n = _
        rw [findQueue_eraseP hnames n, ← hfind n]
      have hsome : (some q).isSome = true := rfl
      rw [if_pos hsome]
      simp only
      rw [hmap]
      exact .removed hop ((hfind name).trans hq)

theorem Queues.unlink_names (h : s.names.Nodup) (name : String) :
    (s.unlink name).2.names.Nodup := by
  cases hlist : s.list with
  | none => rwa [unlink, hlist]
  | some list =>
    have hnames : (list.map Prod.fst).Nodup := by
      rwa [names, hlist] at h
    rw [unlink_eq hlist]
    split
    · exact hnames.sublist (eraseP_sublist.map Prod.fst)
    · exact h

end

/-! ## The calls -/

inductive RegistryPc where
  | idle
  /-- Invoked, before its first critical section. -/
  | called
  /-- `mq_open` after a lookup that found nothing, before it takes the write lock. -/
  | creating
  /-- The result is fixed, the call has not returned. -/
  | answering (r : RegistryResult)
  | returned
  deriving DecidableEq

/-- The registry, where the calls stand, and what the history has recorded. -/
structure Registry (ι : Type*) where
  queues : Queues
  pc : ι → RegistryPc
  log : CallLog ι RegistryResult

variable {ι : Type*} [DecidableEq ι] {op : ι → RegistryOp} {s s' : Registry ι} {i j : ι}

/-- `MESSAGE_QUEUES` before any call. -/
def Registry.start (ι : Type*) : Registry ι := ⟨⟨none, 0⟩, fun _ => .idle, ⟨[], []⟩⟩

/-- Call `i` has its result. -/
def Registry.decide (s : Registry ι) (i : ι) (r : RegistryResult) (queues : Queues) : Registry ι :=
  ⟨queues, update s.pc i (.answering r), ⟨s.log.hist, s.log.order ++ [(i, r)]⟩⟩

/-- The next step of call `i`. -/
def Registry.next (op : ι → RegistryOp) (s : Registry ι) (i : ι) : Option (Registry ι) :=
  match s.pc i, op i with
  | .idle, _ =>
    some ⟨s.queues, update s.pc i .called, ⟨s.log.hist ++ [.inv i], s.log.order⟩⟩
  | .called, .mqOpen name create =>
    match s.queues.look name create with
    | some r => some (s.decide i r s.queues)
    | none => some { s with pc := update s.pc i .creating }
  | .creating, .mqOpen name _ =>
    some (s.decide i (s.queues.create name).1 (s.queues.create name).2)
  | .called, .mqUnlink name =>
    some (s.decide i (s.queues.unlink name).1 (s.queues.unlink name).2)
  | .creating, .mqUnlink _ => none
  | .answering r, _ =>
    some ⟨s.queues, update s.pc i .returned, ⟨s.log.hist ++ [.ret i r], s.log.order⟩⟩
  | .returned, _ => none

def RegistryStep (op : ι → RegistryOp) (s s' : Registry ι) : Prop := ∃ i, s.next op i = some s'

/-! ## The invariant -/

def RegistryPc.At (op : ι → RegistryOp) (log : CallLog ι RegistryResult) (i : ι) : RegistryPc → Prop
  | idle => CallEvent.inv i ∉ log.hist ∧ i ∉ log.order.map Prod.fst
  | called => CallEvent.inv i ∈ log.hist ∧ i ∉ log.order.map Prod.fst
  | creating => (CallEvent.inv i ∈ log.hist ∧ i ∉ log.order.map Prod.fst) ∧
      ∃ name, op i = .mqOpen name true
  | answering r => (i, r) ∈ log.order
  | returned => True

omit [DecidableEq ι] in
theorem RegistryPc.At.congr {log log' : CallLog ι RegistryResult} {p : RegistryPc}
    (h : p.At op log j) (hhist : CallEvent.inv j ∈ log'.hist ↔ CallEvent.inv j ∈ log.hist)
    (horder : ∀ r, (j, r) ∈ log'.order ↔ (j, r) ∈ log.order) : p.At op log' j := by
  have hids : j ∈ log'.order.map Prod.fst ↔ j ∈ log.order.map Prod.fst := by
    simp only [mem_map, Prod.exists, exists_and_right, exists_eq_right, horder]
  cases p with
  | idle => exact ⟨fun hm => h.1 (hhist.mp hm), fun hm => h.2 (hids.mp hm)⟩
  | called => exact ⟨hhist.mpr h.1, fun hm => h.2 (hids.mp hm)⟩
  | creating => exact ⟨⟨hhist.mpr h.1.1, fun hm => h.1.2 (hids.mp hm)⟩, h.2⟩
  | answering r => exact (horder r).mpr h
  | returned => trivial

structure RegistryInv (op : ι → RegistryOp) (s : Registry ι) : Prop where
  names : s.queues.names.Nodup
  places : ∀ i, (s.pc i).At op s.log i

theorem places_update {p : RegistryPc} {log : CallLog ι RegistryResult}
    (h : ∀ j, (s.pc j).At op s.log j) (hi : p.At op log i)
    (hhist : ∀ j, j ≠ i → (CallEvent.inv j ∈ log.hist ↔ CallEvent.inv j ∈ s.log.hist))
    (horder : ∀ j, j ≠ i → ∀ r, (j, r) ∈ log.order ↔ (j, r) ∈ s.log.order) (j : ι) :
    (update s.pc i p j).At op log j := by
  by_cases hj : j = i
  · subst hj
    rwa [update_self]
  · rw [update_of_ne hj]
    exact (h j).congr (hhist j hj) (horder j hj)

theorem RegistryInv.decide (h : RegistryInv op s) {r : RegistryResult} {queues : Queues}
    (hwait : CallEvent.inv i ∈ s.log.hist ∧ i ∉ s.log.order.map Prod.fst)
    (hnames : queues.names.Nodup) (hdoes : QueueMap.Does op s.queues.toMap i r queues.toMap) :
    RegistryInv op (s.decide i r queues) ∧
    LogStep (QueueMap.Does op) (s.log, s.queues.toMap)
      ((s.decide i r queues).log, queues.toMap) := by
  refine ⟨⟨hnames, ?_⟩, .effect hwait.1 hwait.2 hdoes⟩
  refine places_update h.places ?_ (fun _ _ => Iff.rfl) ?_
  · exact mem_append_right _ mem_cons_self
  · intro j hj r'
    simp [Registry.decide, hj]

theorem RegistryInv.step (h : RegistryInv op s) (hs : s.next op i = some s') :
    RegistryInv op s' ∧ ((s'.log, s'.queues.toMap) = (s.log, s.queues.toMap) ∨
      LogStep (QueueMap.Does op) (s.log, s.queues.toMap) (s'.log, s'.queues.toMap)) := by
  have hat := h.places i
  unfold Registry.next at hs
  cases hp : s.pc i with
  | idle =>
    rw [hp] at hs hat
    obtain rfl := Option.some.inj hs
    refine ⟨⟨h.names, places_update h.places ?_ ?_ fun _ _ _ => Iff.rfl⟩, .inr (.invoke hat.1)⟩
    · exact ⟨mem_append_right _ mem_cons_self, hat.2⟩
    · intro j hj
      simp [hj]
  | answering r =>
    rw [hp] at hs hat
    obtain rfl := Option.some.inj hs
    refine ⟨⟨h.names, places_update h.places trivial ?_ fun _ _ _ => Iff.rfl⟩, .inr (.answer hat)⟩
    intro j _
    simp
  | returned =>
    rw [hp] at hs
    cases hs
  | called =>
    rw [hp] at hs hat
    cases hop : op i with
    | mqUnlink name =>
      rw [hop] at hs
      obtain rfl := Option.some.inj hs
      obtain ⟨hinv, hstep⟩ := h.decide hat (unlink_names h.names name)
        (unlink_does h.names hop)
      exact ⟨hinv, .inr hstep⟩
    | mqOpen name create =>
      simp only [hop] at hs
      cases hlook : s.queues.look name create with
      | some r =>
        rw [hlook] at hs
        obtain rfl := Option.some.inj hs
        obtain ⟨hinv, hstep⟩ := h.decide hat h.names (look_does hop hlook)
        exact ⟨hinv, .inr hstep⟩
      | none =>
        rw [hlook] at hs
        obtain rfl := Option.some.inj hs
        have hcreate := create_of_look hlook
        subst hcreate
        exact ⟨⟨h.names, places_update h.places ⟨hat, name, hop⟩ (fun _ _ => Iff.rfl)
          fun _ _ _ => Iff.rfl⟩, .inl rfl⟩
  | creating =>
    rw [hp] at hs hat
    obtain ⟨hwait, name, hop⟩ := hat
    rw [hop] at hs
    obtain rfl := Option.some.inj hs
    obtain ⟨hinv, hstep⟩ := h.decide hwait (create_names h.names name)
      (create_does hop)
    exact ⟨hinv, .inr hstep⟩

theorem registry_records (h : Reach (RegistryStep op) (Registry.start ι) s) : RegistryInv op s ∧
    Reach (LogStep (QueueMap.Does op)) (⟨[], []⟩, toMap ⟨none, 0⟩) (s.log, s.queues.toMap) :=
    by
  refine h.invariant (P := fun s => RegistryInv op s ∧
    Reach (LogStep (QueueMap.Does op)) (⟨[], []⟩, toMap ⟨none, 0⟩)
      (s.log, s.queues.toMap)) ?_ ?_
  · exact ⟨⟨nodup_nil, fun _ => ⟨not_mem_nil, not_mem_nil⟩⟩, Reach.refl⟩
  · rintro s s' ⟨hinv, hreach⟩ ⟨i, hs⟩
    obtain ⟨hinv', hlog⟩ := hinv.step hs
    refine ⟨hinv', ?_⟩
    rcases hlog with hsame | hstep
    · rwa [hsame]
    · exact hreach.tail hstep

/-! ## Opens of one name -/

section

variable {m m' : QueueMap} {name : String} {q : Nat} {r : RegistryResult}

omit [DecidableEq ι] in
theorem QueueMap.Does.keeps (h : QueueMap.Does op m i r m') (hq : m.queue name = some q)
    (hop : op i ≠ .mqUnlink name) : m'.queue name = some q := by
  cases h with
  | found | absent | missing => exact hq
  | @fresh name' _ _ hnone _ =>
    have hne : name ≠ name' := by
      rintro rfl
      rw [hq] at hnone
      cases hnone
    exact (update_of_ne hne _ _).trans hq
  | @removed name' _ hop' _ =>
    have hne : name ≠ name' := by
      rintro rfl
      exact hop hop'
    exact (update_of_ne hne _ _).trans hq

omit [DecidableEq ι] in
theorem legal_keeps {l : List (ι × RegistryResult)} (h : Legal (QueueMap.Does op) m l m')
    (hq : m.queue name = some q) (hop : ∀ p ∈ l, op p.1 ≠ .mqUnlink name) :
    m'.queue name = some q := by
  induction l generalizing m with
  | nil =>
    obtain ⟨⟩ := h
    exact hq
  | cons p l ih =>
    obtain ⟨m1, hdoes, hrest⟩ := legal_cons_iff.mp h
    exact ih hrest (hdoes.keeps hq (hop p mem_cons_self))
      fun p hp => hop p (mem_cons_of_mem _ hp)

omit [DecidableEq ι] in
theorem QueueMap.Does.opened {create : Bool} (h : QueueMap.Does op m i (.opened q) m')
    (hop : op i = .mqOpen name create) : m'.queue name = some q := by
  cases h with
  | found hop' hq =>
    cases hop.symm.trans hop'
    exact hq
  | fresh hop' =>
    cases hop.symm.trans hop'
    exact update_self ..

omit [DecidableEq ι] in
theorem QueueMap.Does.opens_present {create : Bool} {q' : Nat}
    (h : QueueMap.Does op m i (.opened q') m') (hop : op i = .mqOpen name create)
    (hq : m.queue name = some q) : q' = q := by
  cases h with
  | found hop' hq' =>
    cases hop.symm.trans hop'
    exact Option.some.inj (hq'.symm.trans hq)
  | fresh hop' hnone =>
    cases hop.symm.trans hop'
    rw [hq] at hnone
    cases hnone

/-- Two opens of a name in this order, with no unlink of the name between them, return one queue. -/
def SameQueue (op : ι → RegistryOp) (order : List (ι × RegistryResult)) : Prop :=
  ∀ {before between after i j name create create' q q'},
    order = before ++ (i, .opened q) :: (between ++ (j, .opened q') :: after) →
    op i = .mqOpen name create → op j = .mqOpen name create' →
    (∀ p ∈ between, op p.1 ≠ .mqUnlink name) → q' = q

omit [DecidableEq ι] in
theorem sameQueue_of_legal {order : List (ι × RegistryResult)}
    (h : Legal (QueueMap.Does op) m order m') : SameQueue op order := by
  intro before between after i j name create create' q q' horder hi hj hbetween
  rw [horder] at h
  obtain ⟨m1, _, h1⟩ := legal_append_iff.mp h
  obtain ⟨m2, hopen, h2⟩ := legal_cons_iff.mp h1
  obtain ⟨m3, hmid, h3⟩ := legal_append_iff.mp h2
  obtain ⟨m4, hopen', _⟩ := legal_cons_iff.mp h3
  exact hopen'.opens_present hj (legal_keeps hmid (hopen.opened hi) hbetween)

end

/-- **The registry is linearizable**: the calls of a run can be put in an order that agrees with
real time, in which their results are those of a map from names to queues. -/
theorem registry_linearizable (op : ι → RegistryOp)
    (h : Reach (RegistryStep op) (Registry.start ι) s) :
    s.queues.names.Nodup ∧
      ∃ order, Linearizes (QueueMap.Does op) ⟨fun _ => none, ∅⟩ s.log.hist order ∧
        SameQueue op order := by
  obtain ⟨hinv, hreach⟩ := registry_records h
  have hstart : Queues.toMap ⟨none, 0⟩ = ⟨fun _ => none, ∅⟩ := by
    unfold Queues.toMap
    congr 1
    ext q
    exact ⟨fun hq => absurd hq (Nat.not_lt_zero q), fun hq => hq.elim⟩
  rw [hstart] at hreach
  have hlin := linearizes_of_reach hreach
  obtain ⟨m, hlegal⟩ := hlin.legal
  exact ⟨hinv.names, s.log.order, hlin, sameQueue_of_legal hlegal⟩

theorem registry_linearizable_race :
    ∃ s : Registry (Fin 2),
      Reach (RegistryStep fun _ => .mqOpen "a" true) (Registry.start (Fin 2)) s ∧
        s.log.hist = [.inv 0, .inv 1, .ret 0 (.opened 0), .ret 1 (.opened 0)] ∧
        ∃ order, Linearizes (QueueMap.Does fun _ => .mqOpen "a" true) ⟨fun _ => none, ∅⟩
          s.log.hist order := by
  have hrun : ∃ s : Registry (Fin 2),
      Reach (Fires (Registry.next fun _ => .mqOpen "a" true) fun _ _ => True)
        (Registry.start (Fin 2)) s ∧
        s.log.hist = [.inv 0, .inv 1, .ret 0 (.opened 0), .ret 1 (.opened 0)] :=
    exists_reach [0, 1, 0, 1, 0, 1, 0, 1] (by decide)
  obtain ⟨s, hreach, hhist⟩ := hrun
  have hsteps : Reach (RegistryStep fun _ => .mqOpen "a" true) (Registry.start (Fin 2)) s :=
    hreach.invariant Reach.refl fun hr ⟨i, _, hs⟩ => hr.tail ⟨i, hs⟩
  obtain ⟨_, order, hlin, _⟩ := registry_linearizable _ hsteps
  exact ⟨s, hsteps, hhist, order, hlin⟩

end Kerners.Ipc
