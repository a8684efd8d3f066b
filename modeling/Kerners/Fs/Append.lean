import Kerners.Fs.Syscall
import Kerners.Lib.Threads

/-!
# Appending to a shared file (`src/fs/fd.rs`, `src/fs/ramfs/mod.rs`)

Any number of `OpenFile` objects are open on one `RamFsFile`. `OpenFile::write` holds the lock of
its own object's `offset` for the whole call; with `O_APPEND` it first asks the file for its size
and then writes at that offset. The file's own lock is held for the size and for the write, each
on its own, so a turn is one of:
* the call begins and gets the lock of `offset`, or fails with `PermissionDenied`;
* `offset` is set to the size that `stat` returns;
* `RamFsFile::write` at `offset`, which `offset` then passes, and the return.

A history beside the file keeps, for each write, where it went and the size the file had then.
-/

namespace Kerners.Fs

open Lib List

/-! ## Writing at the end of a `RamFsFile` -/

theorem length_write {data buf : Bytes} {offset : Nat} (h : offset ≤ data.length) :
    (RamFsFile.write data offset buf).length = max data.length (offset + buf.length) := by
  rw [RamFsFile.write_eq h]
  simp only [splice, length_append, length_take, length_drop]
  omega

theorem write_end (data buf : Bytes) : RamFsFile.write data data.length buf = data ++ buf := by
  rw [RamFsFile.write_eq le_rfl]
  simp [splice]

theorem write_nil {data : Bytes} {offset : Nat} (h : offset ≤ data.length) :
    RamFsFile.write data offset [] = data := by
  rw [RamFsFile.write_eq h]
  simp [splice]

/-! ## The calls -/

def isAppend (flags : Nat) : Bool := flags &&& 0o2000 != 0

structure LoggedWrite where
  offset : Nat
  size : Nat
  buf : Bytes
  deriving DecidableEq

structure SharedFile where
  data : Bytes
  log : List LoggedWrite

/-- Where the call on an `OpenFile` stands, and what the last one returned. -/
inductive WritePc where
  | idle (returned : Option (Except VfsError Nat))
  | locked (buf : Bytes)
  | placed (buf : Bytes)
  deriving DecidableEq

/-- An `OpenFile` on the file. -/
structure Appender where
  flags : Nat
  offset : Nat
  pc : WritePc

inductive WriteAct where
  | write (buf : Bytes)
  | step

/-- `OpenFile::write`, one turn at a time. `RamFsFile::stat` and `RamFsFile::write` do not fail. -/
def OpenFile.writeTurn (sh : SharedFile) (f : Appender) : WriteAct → Option (SharedFile × Appender)
  | .write buf =>
    match f.pc with
    | .idle _ =>
      if !isWritable f.flags then
        some (sh, { f with pc := .idle (some (.error .permissionDenied)) })
      else some (sh, { f with pc := .locked buf })
    | _ => none
  | .step =>
    match f.pc with
    | .idle _ => none
    | .locked buf =>
      some (sh, { f with
        offset := if isAppend f.flags then sh.data.length else f.offset
        pc := .placed buf })
    | .placed buf =>
      some (⟨RamFsFile.write sh.data f.offset buf, sh.log ++ [⟨f.offset, sh.data.length, buf⟩]⟩,
        { f with offset := f.offset + buf.length, pc := .idle (some (.ok buf.length)) })

/-- The objects open on a file with the contents `init`. -/
def opened {ι : Type} (init : Bytes) (flags offset : ι → Nat) : Conf ι SharedFile Appender :=
  ⟨⟨init, []⟩, fun i => ⟨flags i, offset i, .idle none⟩⟩

/-! ## The contents, from the history -/

/-- The writes of the history, each within the file as it was then, end in the contents `data`. -/
inductive Logged (init : Bytes) : List LoggedWrite → Bytes → Prop
  | nil : Logged init [] init
  | write {log data offset} (buf : Bytes) (h : Logged init log data) (hle : offset ≤ data.length) :
    Logged init (log ++ [⟨offset, data.length, buf⟩]) (RamFsFile.write data offset buf)

namespace LoggedWrite

def AtEnd (e : LoggedWrite) : Prop := e.buf = [] ∨ e.offset = e.size

instance (e : LoggedWrite) : Decidable e.AtEnd := inferInstanceAs (Decidable (_ ∨ _))

def total (log : List LoggedWrite) : Nat := (log.map buf).flatten.length

theorem total_append (log : List LoggedWrite) (e : LoggedWrite) :
    total (log ++ [e]) = total log + e.buf.length := by
  simp [total]

end LoggedWrite

namespace Logged

open LoggedWrite

variable {init data : Bytes} {log : List LoggedWrite}

theorem length_le (h : Logged init log data) : data.length ≤ init.length + total log := by
  induction h with
  | nil => simp [total]
  | write buf h hle ih =>
    rw [length_write hle, total_append]
    simp only
    omega

theorem length_lt (h : Logged init log data) {e : LoggedWrite} (he : e ∈ log) (hend : ¬ e.AtEnd) :
    data.length < init.length + total log := by
  induction h with
  | nil => cases he
  | write buf h hle ih =>
    rw [length_write hle, total_append]
    simp only
    rcases mem_append.1 he with he | he
    · have := ih he
      omega
    · obtain rfl := mem_singleton.1 he
      obtain ⟨hbuf, hlt⟩ := not_or.1 hend
      have := h.length_le
      have := length_pos_iff.2 hbuf
      simp only at *
      omega

theorem eq_flatten (h : Logged init log data) (hend : ∀ e ∈ log, e.AtEnd) :
    data = init ++ (log.map buf).flatten := by
  induction h with
  | nil => simp
  | @write log data offset buf h hle ih =>
    have hdata := ih fun e he => hend e (mem_append_left _ he)
    have hwrite : RamFsFile.write data offset buf = data ++ buf := by
      rcases hend _ (mem_append_right _ (mem_singleton_self _)) with hnil | hsize
      · obtain rfl : buf = [] := hnil
        rw [write_nil hle, append_nil]
      · obtain rfl : offset = data.length := hsize
        exact write_end data buf
    rw [hwrite]
    simp [hdata]

theorem intact_iff (h : Logged init log data) : (∃ order : List Bytes, order.Perm (log.map buf) ∧
    data = init ++ order.flatten) ↔ ∀ e ∈ log, e.AtEnd := by
  constructor
  · rintro ⟨order, hperm, hdata⟩ e he
    by_contra hend
    have hlt := h.length_lt he hend
    rw [hdata, length_append, hperm.flatten.length_eq] at hlt
    exact lt_irrefl _ hlt
  · exact fun hend => ⟨_, .refl _, h.eq_flatten hend⟩

end Logged

/-! ## The runs -/

section

variable {ι : Type} [DecidableEq ι]

/-- The object appends, and a call on it is not about to write behind the end of the file. -/
structure Appender.Within (sh : SharedFile) (f : Appender) : Prop where
  append : isAppend f.flags = true
  placed : ∀ buf, f.pc = .placed buf → f.offset ≤ sh.data.length

/-- What holds in every state: the history explains the contents. -/
structure AppendInv (init : Bytes) (c : Conf ι SharedFile Appender) : Prop where
  logged : Logged init c.shared.log c.shared.data
  within : ∀ i, (c.thread i).Within c.shared

inductive WriteEffect (sh : SharedFile) (f : Appender) : SharedFile → Appender → Prop
  | start {f'} (hflags : f'.flags = f.flags) (hpc : ∀ buf, f'.pc ≠ .placed buf) :
    WriteEffect sh f sh f'
  | stat (buf : Bytes) : WriteEffect sh f sh { f with
      offset := if isAppend f.flags then sh.data.length else f.offset, pc := .placed buf }
  | write (buf : Bytes) (hpc : f.pc = .placed buf) : WriteEffect sh f
      ⟨RamFsFile.write sh.data f.offset buf, sh.log ++ [⟨f.offset, sh.data.length, buf⟩]⟩
      { f with offset := f.offset + buf.length, pc := .idle (some (.ok buf.length)) }

theorem OpenFile.writeTurn_effect {sh sh' : SharedFile} {f f' : Appender} {a : WriteAct}
    (h : OpenFile.writeTurn sh f a = some (sh', f')) : WriteEffect sh f sh' f' := by
  revert h
  fun_cases OpenFile.writeTurn sh f a <;> intro h <;>
    simp only [Option.some.injEq, Prod.mk.injEq, reduceCtorEq] at h <;> obtain ⟨rfl, rfl⟩ := h
  · exact .start rfl fun buf => by simp
  · exact .start rfl fun buf => by simp
  · exact .stat _
  · exact .write _ (by assumption)

namespace WriteEffect

variable {init : Bytes} {sh sh' : SharedFile} {f f' : Appender}

theorem length_le (h : WriteEffect sh f sh' f') (hf : f.Within sh) :
    sh.data.length ≤ sh'.data.length := by
  cases h with
  | start => exact le_rfl
  | stat => exact le_rfl
  | write buf hpc =>
    rw [length_write (hf.placed buf hpc)]
    exact le_max_left ..

theorem within (h : WriteEffect sh f sh' f') (hf : f.Within sh) : f'.Within sh' := by
  cases h with
  | start hflags hpc => exact ⟨hflags ▸ hf.append, fun buf h => absurd h (hpc buf)⟩
  | stat buf => exact ⟨hf.append, fun _ _ => by simp [hf.append]⟩
  | write buf hpc => exact ⟨hf.append, fun _ h => by cases h⟩

theorem logged (h : WriteEffect sh f sh' f') (hf : f.Within sh) (hl : Logged init sh.log sh.data) :
    Logged init sh'.log sh'.data := by
  cases h with
  | start => exact hl
  | stat => exact hl
  | write buf hpc => exact .write buf hl (hf.placed buf hpc)

end WriteEffect

variable {init : Bytes} {flags offset : ι → Nat} {c c' : Conf ι SharedFile Appender}

theorem AppendInv.next (hi : AppendInv init c) {ia : ι × WriteAct}
    (hn : c.next OpenFile.writeTurn ia = some c') : AppendInv init c' := by
  have hwithin := Conf.forall_thread (Q := fun sh _ f => f.Within sh) hi.within hn
    (fun ht => (OpenFile.writeTurn_effect ht).within (hi.within _))
    (fun ht j _ hj => ⟨hj.append, fun buf hpc =>
      (hj.placed buf hpc).trans ((OpenFile.writeTurn_effect ht).length_le (hi.within _))⟩)
  obtain ⟨sh, f, ht, rfl⟩ := Conf.exists_turn hn
  exact ⟨(OpenFile.writeTurn_effect ht).logged (hi.within _) hi.logged, hwithin⟩

def AppendRun (init : Bytes) (flags offset : ι → Nat) : Conf ι SharedFile Appender → Prop :=
  Reach (Fires (Conf.next OpenFile.writeTurn) fun _ _ => True) (opened init flags offset)

theorem AppendRun.inv (happend : ∀ i, isAppend (flags i) = true)
    (hr : AppendRun init flags offset c) : AppendInv init c :=
  Reach.invariant ⟨.nil, fun i => ⟨happend i, fun _ h => by cases h⟩⟩
    (fun hi ⟨_, _, hn⟩ => hi.next hn) hr

/-- **Appending is safe exactly at the end of the file**: when each write found the file at the size
that its `stat` had returned, or had nothing to write. -/
theorem run_appends_iff (happend : ∀ i, isAppend (flags i) = true)
    (hr : AppendRun init flags offset c) :
    (∃ order : List Bytes, order.Perm (c.shared.log.map LoggedWrite.buf) ∧
      c.shared.data = init ++ order.flatten) ↔
      ∀ e ∈ c.shared.log, e.buf = [] ∨ e.offset = e.size :=
  (AppendRun.inv happend hr).logged.intact_iff

end

theorem run_appends_iff_turns :
    ∃ c : Conf (Fin 2) SharedFile Appender, ∃ order : List Bytes,
      order.Perm (c.shared.log.map LoggedWrite.buf) ∧ order.length = 2 ∧
      c.shared.data = [9] ++ order.flatten := by
  obtain ⟨c, hr, hlog⟩ : ∃ c, AppendRun [9] (fun _ : Fin 2 => 0o2001) (fun _ => 0) c ∧
      c.shared.log = [⟨1, 1, [1, 2]⟩, ⟨3, 3, [3]⟩] :=
    exists_reach [(0, .write [1, 2]), (1, .write [3]), (0, .step), (0, .step), (1, .step),
      (1, .step)] (by decide)
  obtain ⟨order, hperm, hdata⟩ := (run_appends_iff (fun _ => by decide) hr).2 (by simp [hlog])
  exact ⟨c, order, hperm, by simp [hperm.length_eq, hlog], hdata⟩

/-- Both calls get the size 0; the second write then goes over the first. -/
theorem append_overwrites :
    ∃ c : Conf (Fin 2) SharedFile Appender,
      AppendRun [] (fun _ => 0o2001) (fun _ => 0) c ∧
      (∀ i, (c.thread i).pc = .idle (some (.ok 1))) ∧
      ¬ ∃ order : List Bytes, order.Perm (c.shared.log.map LoggedWrite.buf) ∧
        c.shared.data = order.flatten := by
  obtain ⟨c, hr, hpc, hdata, hlog⟩ : ∃ c, AppendRun [] (fun _ : Fin 2 => 0o2001) (fun _ => 0) c ∧
      (∀ i, (c.thread i).pc = .idle (some (.ok 1))) ∧ c.shared.data = [2] ∧
      c.shared.log.map LoggedWrite.buf = [[1], [2]] :=
    exists_reach [(0, .write [1]), (1, .write [2]), (0, .step), (1, .step), (0, .step),
      (1, .step)] (by decide)
  refine ⟨c, hr, hpc, ?_⟩
  rintro ⟨order, hperm, heq⟩
  have hlen := hperm.flatten.length_eq
  rw [← heq, hdata, hlog] at hlen
  cases hlen

end Kerners.Fs
