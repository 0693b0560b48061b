import DspcDriver.File.Chip
import DspcDriver.Lib.Run

/-!
# Opening and closing files

The blocks of the kernel's heap under any sequence of opens and closes. `DPU_fops` sets no `release`,
so a close runs nothing and the handle stays allocated. `DPU_close` itself would not free it either:
it takes the handle for an array of handles, and frees the register table and what else it finds in
its first words. With `DPU_fops` as it is, and with `DPU_close` as its `release`, the closes of a run
undo the opens exactly if there are none (`closes_undo_iff`).
-/

namespace Dspc

open Lib

/-- `live` are the allocated blocks; `handles` and `freed` are what a run has allocated in `DPU_open`
and given to `kfree` so far. -/
structure FileState where
  live : Finset Word
  handles : Finset Word
  freed : Finset Word
  files : Nat → Option PrivateData

inductive FileAction where
  | openFile (file minor : Nat) (kmalloc : Option Word)
  | close (file : Nat)
  deriving DecidableEq

namespace FileState

def apply (s : FileState) : FileEvent → FileState
  | .kmalloc p => { s with live := insert p s.live, handles := insert p s.handles }
  | .kfree p => { s with live := s.live.erase p, freed := insert p s.freed }
  | _ => s

def applyAll (s : FileState) (es : List FileEvent) : FileState := es.foldl apply s

/-- Before the first open: the register tables of the chips are there and allocated. -/
structure Init (chips : Chips) (s : FileState) : Prop where
  tables : ∀ i u, chips.g_pProcessorUnitDev i = some u →
    chips.gpRegisterTable i ≠ 0 ∧ chips.gpRegisterTable i ∈ s.live
  handles : s.handles = ∅
  freed : s.freed = ∅
  files : ∀ file, s.files file = none

end FileState

section

variable (fops : FileOperations)

/-- One open or close. `kmalloc` gives a block that is not in use, or fails. -/
inductive FileStep : FileState → FileAction → FileState → Prop
  | openFile {s : FileState} {file minor : Nat} {kmalloc : Option Word} {r : Int}
      {f : Option PrivateData} : s.files file = none →
      (∀ p, kmalloc = some p → p ≠ 0 ∧ p ∉ s.live) →
      (fops.openFile minor kmalloc).out = .ok (r, f) →
      FileStep s (.openFile file minor kmalloc)
        { s.applyAll (fops.openFile minor kmalloc).events with
          files := Function.update s.files file f }
  | close {s : FileState} {file : Nat} {f : PrivateData} : s.files file = some f →
      (fops.close f).out = .ok () →
      FileStep s (.close file)
        { s.applyAll (fops.close f).events with files := Function.update s.files file none }

/-- In the run of the actions `as` from `s₀`, closing a file undoes opening it. -/
structure ClosesUndo (chips : Chips) (s₀ : FileState) (as : List FileAction) : Prop where
  /-- A close frees the handle of its file and nothing else. -/
  close : ∀ as₁ file as₂ s t f, as = as₁ ++ .close file :: as₂ → Run (FileStep fops) s₀ as₁ s →
    FileStep fops s (.close file) t → s.files file = some f →
    f.pHandle ∈ s.live ∧ t.live = s.live.erase f.pHandle
  /-- The tables of the chips and the handles of the open files are live. -/
  live : ∀ as₁ as₂ s, as = as₁ ++ as₂ → Run (FileStep fops) s₀ as₁ s →
    (∀ i u, chips.g_pProcessorUnitDev i = some u → chips.gpRegisterTable i ∈ s.live) ∧
      ∀ file f, s.files file = some f → f.pHandle ∈ s.live
  freed : ∀ as₁ as₂ s, as = as₁ ++ as₂ → Run (FileStep fops) s₀ as₁ s → s.freed ⊆ s.handles
  /-- No handle outlives the files. -/
  closed : ∀ as₁ as₂ s, as = as₁ ++ as₂ → Run (FileStep fops) s₀ as₁ s →
    (∀ file, s.files file = none) → ∀ p ∈ s.handles, p ∉ s.live

end

/-- The file operations of the driver, as they are and with `DPU_close` as the `release`. -/
def DriverFops (chips : Chips) (fops : FileOperations) : Prop :=
  fops = DPU_fops chips ∨ fops = { DPU_fops chips with release := some DPU_close }

variable {chips : Chips} {fops : FileOperations} {s₀ s t : FileState} {as : List FileAction}

namespace FileState

/-- What is open behind an update is what was set or what was open. -/
theorem update_some {files : Nat → Option PrivateData} {file file' : Nat} {x : Option PrivateData}
    {g : PrivateData} (h : Function.update files file x file' = some g) :
    x = some g ∨ files file' = some g := by
  by_cases hc : file' = file
  · subst hc
    rw [Function.update_self] at h
    exact .inl h
  · rw [Function.update_of_ne hc] at h
    exact .inr h

theorem live_frees (s : FileState) (ps : List Word) :
    (s.applyAll (ps.map .kfree)).live = s.live \ ps.toFinset := by
  induction ps generalizing s with
  | nil => simp [applyAll]
  | cons p ps ih =>
    show ((s.apply (.kfree p)).applyAll (ps.map .kfree)).live = _
    rw [ih, List.toFinset_cons]
    ext x
    simp [apply]
    tauto

end FileState

/-! ## What an open does -/

theorem DriverFops.openFile_eq (h : DriverFops chips fops) : fops.openFile = DPU_open chips := by
  rcases h with rfl | rfl
  · rfl
  · rfl

/-- An open allocates the handle of its file, or sets no `private_data`. -/
theorem open_state {minor : Nat} {kmalloc : Option Word} {r : Int} {f : Option PrivateData}
    (h : (DPU_open chips minor kmalloc).out = .ok (r, f)) (s : FileState) :
    (f = none ∧ s.applyAll (DPU_open chips minor kmalloc).events = s) ∨
      ∃ g u, f = some g ∧ chips.g_pProcessorUnitDev minor = some u ∧ g.handle = chips.handle u ∧
        s.applyAll (DPU_open chips minor kmalloc).events =
          { s with live := insert g.pHandle s.live, handles := insert g.pHandle s.handles } := by
  obtain he | ⟨-, he⟩ | ⟨p, -, he⟩ | ⟨p, u, -, -, hu, he⟩ := open_cases chips minor kmalloc
  · rw [he] at h
    cases h
  · rw [he] at h ⊢
    cases h
    exact .inl ⟨rfl, rfl⟩
  · rw [he] at h
    cases h
  · rw [he] at h ⊢
    cases h
    exact .inr ⟨_, u, rfl, hu, rfl, rfl⟩

/-- What the opens of a run keep, while nothing is closed. -/
structure OnlyOpened (chips : Chips) (s : FileState) : Prop where
  tables : ∀ i u, chips.g_pProcessorUnitDev i = some u → chips.gpRegisterTable i ∈ s.live
  freed : s.freed = ∅
  files : ∀ file f, s.files file = some f → f.pHandle ∈ s.live
  handles : ∀ p ∈ s.handles, ∃ file f, s.files file = some f ∧ f.pHandle = p

theorem FileState.Init.onlyOpened (h : s.Init chips) : OnlyOpened chips s where
  tables i u hu := (h.tables i u hu).2
  freed := h.freed
  files file f hf := by
    rw [h.files file] at hf
    cases hf
  handles p hp := by
    rw [h.handles] at hp
    cases hp

/-- An open keeps it. -/
theorem OnlyOpened.step (hf : DriverFops chips fops) (h : OnlyOpened chips s) {file minor : Nat}
    {kmalloc : Option Word} (hst : FileStep fops s (.openFile file minor kmalloc) t) :
    OnlyOpened chips t := by
  cases hst with
  | @openFile _ _ _ r f hfree hfresh hout =>
    rw [hf.openFile_eq] at hout ⊢
    obtain ⟨rfl, he⟩ | ⟨g, u, rfl, -, -, he⟩ := open_state hout s
    · rw [he]
      have hsame : Function.update s.files file none = s.files := by
        rw [← hfree, Function.update_eq_self]
      rw [hsame]
      exact h
    · rw [he]
      refine ⟨fun i u hu => Finset.mem_insert_of_mem (h.tables i u hu), h.freed, ?_, ?_⟩
      · intro file' f' hf'
        rcases FileState.update_some hf' with hg | hf'
        · cases hg
          exact Finset.mem_insert_self _ _
        · exact Finset.mem_insert_of_mem (h.files file' f' hf')
      · intro p hp
        rcases Finset.mem_insert.mp hp with rfl | hp
        · exact ⟨file, g, Function.update_self _ _ _, rfl⟩
        · obtain ⟨file', f', hf', rfl⟩ := h.handles p hp
          refine ⟨file', f', ?_, rfl⟩
          rw [← hf']
          refine Function.update_of_ne (fun hc => ?_) _ _
          rw [hc, hfree] at hf'
          cases hf'

/-- **A run without a close** only opens. -/
theorem onlyOpened_of_run (hf : DriverFops chips fops) (h0 : s₀.Init chips)
    (h : Run (FileStep fops) s₀ as s) (hno : ∀ file, .close file ∉ as) : OnlyOpened chips s := by
  revert hno
  refine h.inv ?_ ?_
  · intro _
    exact h0.onlyOpened
  · intro as s a t _ ih hst hno
    have hs := ih fun file hm => hno file (List.mem_append_left _ hm)
    cases a with
    | openFile file minor kmalloc => exact hs.step hf hst
    | close file => exact absurd (List.mem_append_right _ List.mem_cons_self) (hno file)

/-! ## What a close does -/

/-- A file that is open was opened on a chip. -/
theorem file_chip (hf : DriverFops chips fops) (h0 : s₀.Init chips)
    (h : Run (FileStep fops) s₀ as s) :
    ∀ file f, s.files file = some f →
      ∃ i u, chips.g_pProcessorUnitDev i = some u ∧ f.handle = chips.handle u := by
  refine h.inv ?_ ?_
  · intro file f hfile
    rw [h0.files file] at hfile
    cases hfile
  · intro as s a t _ ih hst file' f' hfile
    cases hst with
    | @openFile file minor kmalloc r f hfree hfresh hout =>
      rw [hf.openFile_eq] at hout
      rcases FileState.update_some hfile with rfl | hfile
      · obtain ⟨hnone, -⟩ | ⟨g, u, hg, hu, hh, -⟩ := open_state hout s
        · cases hnone
        · cases hg
          exact ⟨minor, u, hu, hh⟩
      · exact ih file' f' hfile
    | close hopen hout =>
      rcases FileState.update_some hfile with hnone | hfile
      · cases hnone
      · exact ih file' f' hfile

/-- **A close never undoes the open of its file**: it frees nothing, or the chip's register table. -/
theorem close_frees (hf : DriverFops chips fops) (h0 : s₀.Init chips)
    (h : Run (FileStep fops) s₀ as s) {file : Nat} (hst : FileStep fops s (.close file) t) :
    t.live = s.live ∨
      ∃ i u, chips.g_pProcessorUnitDev i = some u ∧ chips.gpRegisterTable i ∉ t.live := by
  cases hst with
  | @close _ f hopen hout =>
    rcases hf with rfl | rfl
    · exact .inl rfl
    · right
      obtain ⟨i, u, hu, hh⟩ := file_chip (.inr rfl) h0 h file f hopen
      refine ⟨i, u, hu, ?_⟩
      show _ ∉ (s.applyAll (DPU_close f).events).live
      rw [DPU_close, LinkLayer_Close, Trace.emitAll, FileState.live_frees, hh, Finset.mem_sdiff]
      rintro ⟨-, hkept⟩
      refine hkept (List.mem_toFinset.mpr (List.mem_filter.mpr ⟨?_, ?_⟩))
      · rw [← table_of_handle hu]
        exact List.mem_cons_self
      · simpa using (h0.tables i u hu).1

/-- **When closing undoes opening**: in the runs without a close, whether `DPU_fops` calls `DPU_close`
or not. -/
theorem closes_undo_iff (hf : DriverFops chips fops) (h0 : s₀.Init chips)
    (h : Run (FileStep fops) s₀ as s) :
    ClosesUndo fops chips s₀ as ↔ ∀ file, .close file ∉ as := by
  constructor
  · intro hc file hm
    obtain ⟨as₁, as₂, t, t', rfl, h₁, hst, -⟩ := h.of_mem hm
    obtain ⟨f, hopen⟩ : ∃ f, t.files file = some f := by
      cases hst with
      | close hopen _ => exact ⟨_, hopen⟩
    obtain ⟨hmem, hlive⟩ := hc.close as₁ file as₂ t t' f rfl h₁ hst hopen
    obtain hsame | ⟨i, u, hu, hout⟩ := close_frees hf h0 h₁ hst
    · rw [hsame] at hlive
      rw [hlive] at hmem
      exact Finset.notMem_erase _ _ hmem
    · exact hout ((hc.live (as₁ ++ [_]) as₂ t' (by simp) (h₁.next hst)).1 i u hu)
  · intro hno
    have honly : ∀ as₁ as₂ t, as = as₁ ++ as₂ → Run (FileStep fops) s₀ as₁ t → OnlyOpened chips t := by
      rintro as₁ as₂ t rfl h₁
      exact onlyOpened_of_run hf h0 h₁ fun file hm => hno file (List.mem_append_left _ hm)
    refine ⟨?_, fun as₁ as₂ t he h₁ => ?_, fun as₁ as₂ t he h₁ => ?_, fun as₁ as₂ t he h₁ hcl => ?_⟩
    · rintro as₁ file as₂ t t' f rfl
      exact absurd (List.mem_append_right _ List.mem_cons_self) (hno file)
    · exact ⟨(honly as₁ as₂ t he h₁).tables, (honly as₁ as₂ t he h₁).files⟩
    · rw [(honly as₁ as₂ t he h₁).freed]
      exact Finset.empty_subset _
    · intro p hp
      obtain ⟨file, f, hfile, -⟩ := (honly as₁ as₂ t he h₁).handles p hp
      rw [hcl file] at hfile
      cases hfile

/-! ## One file -/

/-- The heap with the register table of the first chip. -/
def firstHeap : FileState := ⟨{0xC1400000}, ∅, ∅, fun _ => none⟩

theorem firstHeap_init : firstHeap.Init firstChip := by
  refine ⟨fun i u h => ?_, rfl, rfl, fun _ => rfl⟩
  have hi : i = 0 := by
    by_contra hne
    simp [firstChip, hne] at h
  subst hi
  exact ⟨by decide, Finset.mem_singleton_self _⟩

/-- A file is opened and closed. -/
def openClose : List FileAction := [.openFile 0 0 (some 0xC7000000), .close 0]

theorem firstHeap_open : FileStep (DPU_fops firstChip) firstHeap
    (.openFile 0 0 (some 0xC7000000))
    { firstHeap with
      live := {0xC7000000, 0xC1400000}
      handles := {0xC7000000}
      files := Function.update firstHeap.files 0 (some firstFile) } := by
  refine .openFile rfl ?_ firstFile_open
  rintro p hp
  cases hp
  decide

theorem run_openClose : ∃ s, Run (FileStep (DPU_fops firstChip)) firstHeap openClose s :=
  ⟨_, .next (.next .start firstHeap_open) (.close rfl rfl)⟩

theorem closes_undo_iff_openClose :
    ClosesUndo (DPU_fops firstChip) firstChip firstHeap openClose ↔
      ∀ file, .close file ∉ openClose :=
  run_openClose.elim fun _ h => closes_undo_iff (.inl rfl) firstHeap_init h

/-- The handle stays allocated behind its file. -/
theorem openClose_not_undo : ¬ ClosesUndo (DPU_fops firstChip) firstChip firstHeap openClose := by
  intro hc
  have hst := hc.close [.openFile 0 0 (some 0xC7000000)] 0 [] _ _ firstFile rfl
    (.next .start firstHeap_open) (.close rfl rfl) rfl
  exact absurd hst.2 (by decide)

end Dspc
