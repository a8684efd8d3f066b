import Kerners.Fat32.WriteFrame

/-!
# Reading a file in pieces (fs/fat32/mod.rs, fs/fd.rs)

`Fat32File::read` skips whole clusters, starts inside one and ends inside another; `OpenFile::read`
calls it at its offset and moves the offset by what it returned.
-/

namespace Kerners.Fat32

open Lib Kerners.Block List

variable {fs : Fat32FileSystem} {v : Vol}

/-! ## `Fat32File::read` -/

theorem readLoop_runs (hfull : FullClusters fs v) :
    ∀ {cs : List Nat} {offset want : Nat}, (∀ c ∈ cs, fs.InRange c) → offset ≤ fs.boot.clusterSize →
      offset + want ≤ cs.length * fs.boot.clusterSize →
        RunsM (volView fs) (Fat32File.readLoop fs cs offset want) () v
          (.ok (slice (v.content cs) offset want)) () v
  | [], offset, want, _, _, hle => by
    obtain rfl : want = 0 := by
      rw [length_nil, Nat.zero_mul] at hle
      omega
    have hnil : slice (v.content []) offset 0 = [] := by simp [slice]
    rw [hnil]
    exact .pure _
  | c :: cs, offset, want, hr, hoff, hle => by
    have hclen := hfull c (hr c mem_cons_self)
    unfold Fat32File.readLoop
    by_cases hw : want = 0
    · subst hw
      have hnil : slice (v.content (c :: cs)) offset 0 = [] := by simp [slice]
      rw [if_pos rfl, hnil]
      exact .pure _
    · rw [if_neg hw]
      have ih := @readLoop_runs hfull cs 0 (want - min (fs.boot.clusterSize - offset) want)
        (fun x hx => hr x (mem_cons_of_mem c hx)) (Nat.zero_le _) (by
          rw [length_cons, Nat.succ_mul] at hle
          omega)
      have hcont : v.content (c :: cs) = v.data c ++ v.content cs := rfl
      rw [hcont, slice_append (by omega), hclen]
      exact .bind_ok (vfsCall_ok (readCluster_runs (hr c mem_cons_self)))
        (.bind_ok ih (.pure _))

theorem read_runs (hfull : FullClusters fs v) {s : FileState} {l : List Nat}
    (hchain : 2 ≤ s.startCluster → Chain fs v s.startCluster l)
    (hempty : s.startCluster < 2 → l = []) (hsize : s.size ≤ l.length * fs.boot.clusterSize)
    (offset len : Nat) :
    RunsM (volView fs) (Fat32File.read fs s offset len) () v
      (.ok (slice (v.content l) offset (min len (s.size - offset)))) () v := by
  have hpos := clusterSize_pos fs
  unfold Fat32File.read
  by_cases hoff : offset ≥ s.size
  · have hnil : slice (v.content l) offset (min len (s.size - offset)) = [] := by
      rw [Nat.sub_eq_zero_of_le hoff, Nat.min_zero]
      simp [slice]
    rw [if_pos hoff, hnil]
    exact .pure _
  rw [if_neg hoff]
  have hstart : ¬ s.startCluster < 2 := fun h => by
    rw [hempty h, length_nil, Nat.zero_mul] at hsize
    omega
  rw [if_neg hstart]
  have hc := hchain (by omega)
  have hlen : ∀ x ∈ l, (v.data x).length = fs.boot.clusterSize := fun x hx => hfull x (hc.inRange hx)
  have hread : RunsM (volView fs) (fs.readChain s.startCluster) FatTable.new v (.ok l) FatTable.new v :=
    chainOf_of_chain hc ▸ readChain_runs s.startCluster
  have hdm := Nat.div_add_mod offset fs.boot.clusterSize
  rw [Nat.mul_comm] at hdm
  have hk : offset / fs.boot.clusterSize ≤ l.length := by
    rw [Nat.div_le_iff_le_mul_add_pred hpos, Nat.mul_comm]
    omega
  have hloop := @readLoop_runs fs v hfull (l.drop (offset / fs.boot.clusterSize))
    (offset % fs.boot.clusterSize) (min len (s.size - offset))
    (fun x hx => hc.inRange (mem_of_mem_drop hx)) (Nat.le_of_lt (Nat.mod_lt _ hpos)) (by
      rw [length_drop, Nat.sub_mul]
      omega)
  have hbytes : slice (v.content (l.drop (offset / fs.boot.clusterSize)))
      (offset % fs.boot.clusterSize) (min len (s.size - offset)) =
      slice (v.content l) offset (min len (s.size - offset)) := by
    unfold slice
    rw [content_drop hlen _ hk, drop_drop, hdm]
  rw [hbytes] at hloop
  exact .bind_ok (.within (.mapErr_ok (.call hread))) hloop

/-! ## `OpenFile::read` -/

def isReadable (flags : Nat) : Bool := flags &&& 3 == 0 || flags &&& 3 == 2

/-- `OpenFile::read` on a file; the state is the offset. -/
def OpenFile.read (fs : Fat32FileSystem) (s : FileState) (flags len : Nat) : OpM Nat Bytes := do
  if !isReadable flags then ProgM.throw (.err .permissionDenied)
  else
    let offset ← ProgM.get
    let bytes ← ProgM.within () (Fat32File.read fs s offset len)
    ProgM.set ((offset + bytes.length) % 2 ^ 64)
    pure bytes

def OpenFile.readEach (fs : Fat32FileSystem) (s : FileState) (flags : Nat) :
    List Nat → OpM Nat (List Bytes)
  | [] => pure []
  | len :: lens => do
    let piece ← OpenFile.read fs s flags len
    let pieces ← readEach fs s flags lens
    pure (piece :: pieces)

theorem slice_cut (data : Bytes) (offset n m : Nat) : slice data offset n ++ slice data (offset +
    min n (data.length - offset)) m = slice data offset (n + m) := by
  unfold slice
  rw [take_add, drop_drop]
  congr 1
  rcases Nat.le_total n (data.length - offset) with h | h
  · rw [Nat.min_eq_left h]
  · rw [Nat.min_eq_right h, drop_eq_nil_of_le (by omega), drop_eq_nil_of_le (by omega)]

theorem readEach_runs {s : FileState} {data : Bytes} {flags : Nat}
    (hflags : isReadable flags = true) (hlen : data.length < 2 ^ 64)
    (hread : ∀ offset len,
        RunsM (volView fs) (Fat32File.read fs s offset len) () v (.ok (slice data offset len)) ()
          v) :
    ∀ {lens : List Nat} {offset : Nat}, offset ≤ data.length →
        ∃ pieces offset',
          RunsM (volView fs) (OpenFile.readEach fs s flags lens) offset v (.ok pieces) offset' v ∧
          pieces.flatten = slice data offset lens.sum
  | [], offset, _ => ⟨[], offset, RunsM.pure _, by simp [slice]⟩
  | len :: lens, offset, hoff => by
    have hpiece : (slice data offset len).length = min len (data.length - offset) := by
      simp [slice]
    have hnext : (offset + (slice data offset len).length) % 2 ^ 64 =
        offset + min len (data.length - offset) := by
      rw [hpiece]
      omega
    obtain ⟨pieces, offset', hrun, hcat⟩ := @readEach_runs s data flags hflags hlen hread lens
      (offset + min len (data.length - offset)) (by omega)
    refine ⟨slice data offset len :: pieces, offset', ?_, ?_⟩
    · have hone : RunsM (volView fs) (OpenFile.read fs s flags len) offset v
          (.ok (slice data offset len)) (offset + min len (data.length - offset)) v := by
        unfold OpenFile.read
        rw [hflags, ← hnext]
        exact .bind_ok RunsM.get (.bind_ok (.within (hread offset len))
          (.bind_ok RunsM.set (.pure _)))
      exact .bind_ok hone (.bind_ok hrun (.pure _))
    · rw [flatten_cons, hcat, sum_cons, slice_cut]

/-- **`read` returns exactly the bytes of the file, under any chunking.** -/
theorem read_exact {d : Disk} {f : Fat32File} {s : FileState} (hc : Consistent fs d)
    (hwf : fs.WellFormed d) (hf : FileOn fs (fs.readings d) f s) :
    (∀ offset len,
       ∃ bytes, ((Fat32File.read fs s offset len ()).run Disk.handle d).1.1 = .ok bytes ∧
         bytes.length = min len (s.size - offset) ∧
         bytes =
           slice ((fs.volOf d).content (listAt fs (fs.volOf d) s.startCluster)) offset
             (min len (s.size - offset))) ∧
    ∀ flags lens, isReadable flags = true → s.size ≤ lens.sum →
        ∃ pieces, ((OpenFile.readEach fs s flags lens 0).run Disk.handle d).1.1 = .ok pieces ∧
          pieces.flatten = fileBytes fs d s := by
  have hp := presents_volOf hc
  have hok := (wellFormed_iff hc).1 hwf
  rw [readings_eq hc] at hf
  have hfull : FullClusters fs (fs.volOf d) := fun x hx => hp.data_length hx
  have hplace := hok.fileOn hf
  have hempty : s.startCluster < 2 → listAt fs (fs.volOf d) s.startCluster = [] := listAt_small
  have hrun := read_runs hfull hplace.chain hempty hplace.size
  have hcont : ((fs.volOf d).content (listAt fs (fs.volOf d) s.startCluster)).length =
      (listAt fs (fs.volOf d) s.startCluster).length * fs.boot.clusterSize :=
    Vol.content_length fun x hx => hfull x ((hplace.chain (two_le_of_mem hx)).inRange hx)
  have hfit := hplace.size
  have hsize : (fileBytes fs d s).length = s.size := by
    unfold fileBytes
    rw [length_take]
    omega
  have hcut : ∀ offset len, slice ((fs.volOf d).content (listAt fs (fs.volOf d) s.startCluster))
      offset (min len (s.size - offset)) = slice (fileBytes fs d s) offset len := by
    intro offset len
    unfold slice fileBytes
    rw [drop_take, take_take]
  refine ⟨fun offset len => ⟨_, runsM_eq (hrun offset len) hp, ?_, rfl⟩, fun flags lens hfl hsum => ?_⟩
  · rw [hcut]
    simp [slice, hsize]
  · have hsz : s.size < 2 ^ 64 := by
      have h1 : s.size = (f.entryIn fs (fs.volOf d)).fileSize.toNat :=
        congrArg FileState.size hplace.state
      have h2 := (f.entryIn fs (fs.volOf d)).fileSize.toNat_lt
      omega
    obtain ⟨pieces, offset', hpieces, hcat⟩ := @readEach_runs fs (fs.volOf d) s (fileBytes fs d s)
      flags hfl (by omega) (fun offset len => hcut offset len ▸ hrun offset len) lens 0
      (Nat.zero_le _)
    refine ⟨pieces, runsM_eq hpieces hp, ?_⟩
    rw [hcat]
    unfold slice
    rw [drop_zero, take_of_length_le (by omega)]

/-- Three reads of the file of two clusters, the second across the border between them. -/
theorem read_exact_chainDisk :
    (∃ bytes,
       ((Fat32File.read smallFs ⟨3, 600⟩ 510 4 ()).run Disk.handle chainDisk).1.1 = .ok bytes ∧
       bytes = [3, 3, 4, 4] ∧
       bytes.length = min 4 (600 - 510)) ∧
    ∃ pieces,
      ((OpenFile.readEach smallFs ⟨3, 600⟩ 0 [500, 30, 70] 0).run Disk.handle chainDisk).1.1 =
        .ok pieces ∧
      pieces.flatten = fileBytes smallFs chainDisk ⟨3, 600⟩ := by
  obtain ⟨hread, hchunks⟩ := read_exact chainDisk_consistent chainDisk_wellFormed chainDisk_fileOn
  obtain ⟨bytes, hrun, hlen, -⟩ := hread 510 4
  refine ⟨⟨bytes, hrun, ?_, hlen⟩, hchunks 0 [500, 30, 70] (by decide) (by decide)⟩
  have hres : ((Fat32File.read smallFs ⟨3, 600⟩ 510 4 ()).run Disk.handle chainDisk).1.1 =
      .ok [3, 3, 4, 4] := by decide +kernel
  rw [hrun] at hres
  exact Except.ok.inj hres

end Kerners.Fat32
