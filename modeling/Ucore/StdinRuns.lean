import Ucore.Stdin

namespace Ucore.StdinRuns

open Relation
open Ucore.Errors
open Ucore.KernelRoutine
open Ucore.RingBuffer
open Ucore.WaitQueues hiding devStdinWrite Step System Starts
open Ucore.Semaphores
open Ucore.Stdin

variable {ι κ : Type} [DecidableEq ι] [DecidableEq κ]

/-- The characters that wait to be read, the oldest first. -/
def unread (s : Input ι κ) : List UInt8 :=
  window STDIN_BUFSIZE s.stdinBuffer s.pRpos (s.pWpos - s.pRpos)

/-- What the readers have been handed, and what they will be. -/
def stream (s : Input ι κ) : List UInt8 :=
  s.handed.map Prod.snd ++ unread s

/-- `0 <= p_wpos - p_rpos <= STDIN_BUFSIZE` -/
def Bounded (s : Input ι κ) : Prop :=
  s.pRpos ≤ s.pWpos ∧ s.pWpos ≤ s.pRpos + STDIN_BUFSIZE

/-- The readers get the accepted characters in arrival order, each once. -/
def Lossless (s : Input ι κ) : Prop :=
  stream s = s.accepted

def Anywhere (_ : Input ι κ) (_ : UInt8) : Prop :=
  True

/-- There is room for the character, or it is the oldest unread one again. -/
def SparesOldest (s : Input ι κ) (c : UInt8) : Prop :=
  c = 0 ∨ s.pWpos - s.pRpos < STDIN_BUFSIZE ∨ s.stdinBuffer (s.pRpos % STDIN_BUFSIZE) = c

section Arrivals

variable {s t : Input ι κ} {c : UInt8} {r : Except Errno Unit}

omit [DecidableEq ι] [DecidableEq κ] in
theorem unread_store_room (h : Bounded s) (hroom : s.pWpos - s.pRpos < STDIN_BUFSIZE) :
    unread (store c s) = unread s ++ [c] := by
  obtain ⟨hle, _⟩ := h
  have hpush := @window_push _ STDIN_BUFSIZE s.pRpos (s.pWpos - s.pRpos) s.stdinBuffer c hroom
  rw [Nat.add_sub_cancel' hle] at hpush
  rw [store, if_pos hroom, unread, Nat.succ_sub hle]
  exact hpush

omit [DecidableEq ι] [DecidableEq κ] in
theorem unread_store_full (h : Bounded s) (hfull : ¬s.pWpos - s.pRpos < STDIN_BUFSIZE) :
    unread (store c s) = c :: (unread s).tail := by
  obtain ⟨hle, hbound⟩ := h
  have hwpos : s.pWpos = s.pRpos + STDIN_BUFSIZE := by omega
  have hover := @window_overwrite _ STDIN_BUFSIZE s.pRpos s.stdinBuffer c (by decide)
  rw [store, if_neg hfull, unread, unread, hwpos, Nat.add_sub_cancel_left]
  exact hover

omit [DecidableEq ι] [DecidableEq κ] in
theorem unread_full (h : Bounded s) (hfull : ¬s.pWpos - s.pRpos < STDIN_BUFSIZE) :
    unread s = s.stdinBuffer (s.pRpos % STDIN_BUFSIZE) :: (unread s).tail := by
  obtain ⟨hle, hbound⟩ := h
  have hwpos : s.pWpos - s.pRpos = (STDIN_BUFSIZE - 1) + 1 := by
    unfold STDIN_BUFSIZE at hbound hfull ⊢
    omega
  rw [unread, hwpos, window_succ, List.tail_cons]

omit [DecidableEq ι] [DecidableEq κ] in
theorem store_bounded (h : Bounded s) : Bounded (store c s) := by
  obtain ⟨hle, hbound⟩ := h
  by_cases hroom : s.pWpos - s.pRpos < STDIN_BUFSIZE
  · rw [store, if_pos hroom]
    exact ⟨by simp only; omega, by simp only; omega⟩
  · rw [store, if_neg hroom]
    exact ⟨hle, hbound⟩

omit [DecidableEq ι] [DecidableEq κ] in
theorem store_handed : (store c s).handed = s.handed := by
  by_cases hroom : s.pWpos - s.pRpos < STDIN_BUFSIZE
  · rw [store, if_pos hroom]
  · rw [store, if_neg hroom]

omit [DecidableEq ι] [DecidableEq κ] in
theorem store_accepted : (store c s).accepted = s.accepted := by
  by_cases hroom : s.pWpos - s.pRpos < STDIN_BUFSIZE
  · rw [store, if_pos hroom]
  · rw [store, if_neg hroom]

omit [DecidableEq ι] [DecidableEq κ] in
theorem store_kernel : (store c s).kernel = s.kernel := by
  by_cases hroom : s.pWpos - s.pRpos < STDIN_BUFSIZE
  · rw [store, if_pos hroom]
  · rw [store, if_neg hroom]

/-- A call of `dev_stdin_write` that returned. -/
theorem devStdinWrite_cases (h : devStdinWrite c s = .ok (r, t)) :
    c = 0 ∧ t = s ∨ c ≠ 0 ∧ ∃ kernel, WaitQueues.devStdinWrite s.kernel = .ok (r, kernel) ∧
      t = { store c s with kernel := kernel } := by
  by_cases hc : c = 0
  · simp only [devStdinWrite, hc, ne_eq, not_true_eq_false, if_false] at h
    cases h
    exact .inl ⟨hc, rfl⟩
  · simp only [devStdinWrite, ne_eq, hc, not_false_eq_true, if_true] at h
    have hrest : onKernel WaitQueues.devStdinWrite (store c s) = .ok (r, t) := h
    obtain ⟨kernel, hkernel, rfl⟩ := onPart_eq_ok hrest
    rw [store_kernel] at hkernel
    exact .inr ⟨hc, kernel, hkernel, rfl⟩

theorem note_bounded (h : Bounded s) (hwrite : devStdinWrite c s = .ok (r, t)) :
    Bounded (note c s t) := by
  have ht : Bounded t := by
    rcases devStdinWrite_cases hwrite with ⟨_, rfl⟩ | ⟨_, kernel, _, rfl⟩
    · exact h
    · exact @store_bounded _ _ s c h
  by_cases hnote : c ≠ 0 ∧ s.pWpos - s.pRpos < STDIN_BUFSIZE
  · rw [note, if_pos hnote]
    exact ht
  · rw [note, if_neg hnote]
    exact ht

/-- A character that arrives keeps the others in order exactly if it spares the oldest one. -/
theorem lossless_note_iff (h : Bounded s) (hlossless : Lossless s)
    (hwrite : devStdinWrite c s = .ok (r, t)) : Lossless (note c s t) ↔ SparesOldest s c := by
  rcases devStdinWrite_cases hwrite with ⟨hc, rfl⟩ | ⟨hc, kernel, _, rfl⟩
  · have hnote : ¬(c ≠ 0 ∧ t.pWpos - t.pRpos < STDIN_BUFSIZE) := by
      rintro ⟨hne, _⟩
      exact hne hc
    rw [note, if_neg hnote]
    exact ⟨fun _ => .inl hc, fun _ => hlossless⟩
  · by_cases hroom : s.pWpos - s.pRpos < STDIN_BUFSIZE
    · rw [note, if_pos ⟨hc, hroom⟩]
      refine ⟨fun _ => .inr (.inl hroom), fun _ => ?_⟩
      change (store c s).handed.map Prod.snd ++ unread (store c s) = (store c s).accepted ++ [c]
      rw [store_handed, store_accepted, unread_store_room h hroom, ← List.append_assoc]
      exact congrArg (· ++ [c]) hlossless
    · rw [note, if_neg (fun hnote => hroom hnote.2)]
      have hstate : Lossless { store c s with kernel := kernel } ↔
          s.handed.map Prod.snd ++ c :: (unread s).tail = s.accepted := by
        rw [← unread_store_full h hroom, ← @store_handed _ _ s c, ← @store_accepted _ _ s c]
        exact Iff.rfl
      have hbefore : s.handed.map Prod.snd ++
          s.stdinBuffer (s.pRpos % STDIN_BUFSIZE) :: (unread s).tail = s.accepted := by
        rw [← unread_full h hroom]
        exact hlossless
      rw [hstate, ← hbefore, List.append_cancel_left_eq, List.cons.injEq]
      constructor
      · rintro ⟨hsame, _⟩
        exact .inr (.inr hsame.symm)
      · rintro (hzero | hlt | hsame)
        · exact absurd hzero hc
        · exact absurd hlt hroom
        · exact ⟨hsame.symm, rfl⟩

end Arrivals

section Reading

variable {s : Input ι κ} {i : ι}

/-- A reader takes its characters from the front of the stream. -/
structure Reads (s t : Input ι κ) : Prop where
  accepted : t.accepted = s.accepted
  bounded : Bounded s → Bounded t
  stream : stream t = stream s

omit [DecidableEq ι] [DecidableEq κ] in
theorem fetch_reads (hlt : s.pRpos < s.pWpos) : Reads s (fetch i s) := by
  refine ⟨rfl, ?_, ?_⟩
  · rintro ⟨_, hbound⟩
    exact ⟨by simp only [fetch]; omega, by simp only [fetch]; omega⟩
  · have hcount : s.pWpos - s.pRpos = (s.pWpos - (s.pRpos + 1)) + 1 := by omega
    have hunread : unread s = s.stdinBuffer (s.pRpos % STDIN_BUFSIZE) :: unread (fetch i s) := by
      rw [unread, hcount, window_succ]
      rfl
    rw [stream, stream, hunread]
    simp [fetch]

/-- The loop reads what there is, and waits if that is too little. -/
theorem readLoop_spec (left ret : Nat) (s : Input ι κ) :
    ∃ r t, readLoop i ret left s = .ok (.ok r, t) ∧ Reads s t ∧
      ((∃ n, r = .done n) ∧ t.kernel = s.kernel ∨
        (∃ n, r = .asleep n) ∧ t.kernel = parked s.kernel .keyboard i) := by
  induction left generalizing ret s with
  | zero => exact ⟨.done ret, s, rfl, ⟨rfl, id, rfl⟩, .inl ⟨⟨ret, rfl⟩, rfl⟩⟩
  | succ left ih =>
      by_cases hlt : s.pRpos < s.pWpos
      · obtain ⟨r, t, hrun, hreads, hkernel⟩ := ih (ret + 1) (fetch i s)
        have hfirst := @fetch_reads _ _ s i hlt
        refine ⟨r, t, ?_, ⟨hreads.accepted, fun h => hreads.bounded (hfirst.bounded h),
          hreads.stream.trans hfirst.stream⟩, hkernel⟩
        rw [readLoop, getState_bind, if_pos hlt]
        exact hrun
      · have hpark : onKernel (waitCurrentSet .keyboard i WT_KBD) s =
            .ok (.ok (), { s with kernel := parked s.kernel .keyboard i }) :=
          onPart_of (waitCurrentSet_of s.kernel .keyboard i)
        refine ⟨.asleep ret, { s with kernel := parked s.kernel .keyboard i }, ?_,
          ⟨rfl, id, rfl⟩, .inr ⟨⟨ret, rfl⟩, rfl⟩⟩
        rw [readLoop, getState_bind, if_neg hlt]
        exact (bind_of_ok hpark).trans rfl

end Reading

section Runs

variable {values : κ → Int} {s₀ s t : System ι κ} {i : ι} {c : UInt8} {label : Option UInt8}
  {guard : Input ι κ → UInt8 → Prop}

/-- The place as the wait queues see it. -/
def pcOf : Place κ → Pc κ
  | .reading _ _ => .reading
  | .outside pc => pc

/-- The system as the wait queues see it. -/
def seen (s : System ι κ) : WaitQueues.System ι κ :=
  ⟨s.shared.kernel, pcOf ∘ s.pc⟩

/-- The processes and the wait queues are sound. -/
def Waiting (values : κ → Int) (s : System ι κ) : Prop :=
  Sound values (seen s).shared (seen s).pc

omit [DecidableEq κ] in
theorem waiting_put {kernel : Kernel ι κ} {place : Place κ} {u : Input ι κ}
    (hkernel : u.kernel = kernel)
    (h : Sound values kernel (Function.update (pcOf ∘ s.pc) i (pcOf place))) :
    Waiting values { shared := u, pc := Function.update s.pc i place } := by
  rw [Waiting, seen, hkernel, Function.comp_update]
  exact h

/-- A process that was running has read, or waits for more. -/
theorem waiting_read {r : Reading} {len : Nat} {kernel : Kernel ι κ} {u : Input ι κ}
    (h : Sound values kernel (Function.update (pcOf ∘ s.pc) i .running))
    (hread : (∃ n, r = .done n) ∧ u.kernel = kernel ∨
      (∃ n, r = .asleep n) ∧ u.kernel = parked kernel .keyboard i) :
    Waiting values { shared := u, pc := Function.update s.pc i (r.place len) } := by
  rcases hread with ⟨⟨n, rfl⟩, hkernel⟩ | ⟨⟨n, rfl⟩, hkernel⟩
  · exact waiting_put hkernel h
  · have hpark : start i (.read : Call ι κ) kernel = .ok (.ok .reading, parked kernel .keyboard i) :=
      bind_of_ok (waitCurrentSet_of kernel .keyboard i)
    let running : WaitQueues.System ι κ := ⟨kernel, Function.update (pcOf ∘ s.pc) i .running⟩
    have hrunning : Sound values running.shared running.pc := h
    have hsound := sound_start hrunning (Function.update_self _ _ _) hpark
    rw [Function.update_idem] at hsound
    exact waiting_put hkernel hsound

/-- After `schedule` the process leaves the wait queue if it is still there. -/
theorem awoken_spec (h : Waiting values s) {len ret : Nat} (hplace : s.pc i = .reading len ret)
    (hrun : s.shared.kernel.state i = .runnable) :
    ∃ r t kernel, awoken i len ret s.shared = .ok (.ok r, t) ∧ Reads s.shared t ∧
      Sound values kernel (Function.update (pcOf ∘ s.pc) i .running) ∧
      ((∃ n, r = .done n) ∧ t.kernel = kernel ∨
        (∃ n, r = .asleep n) ∧ t.kernel = parked kernel .keyboard i) := by
  have hpc : (seen s).pc i = .reading := congrArg pcOf hplace
  obtain ⟨place, kernel, hresume, hsound, _⟩ := resume_of_apart h hrun (by
    rw [hpc]
    simp)
  rw [hpc, resume] at hresume
  obtain ⟨_, kernel', hdel, hend⟩ | ⟨e, _, herror⟩ := bind_eq_ok_iff.mp hresume
  · obtain ⟨rfl, rfl⟩ : Pc.running = place ∧ kernel' = kernel := by
      cases hend
      exact ⟨rfl, rfl⟩
    have hout : onKernel (waitCurrentDel .keyboard i) s.shared =
        .ok (.ok (), { s.shared with kernel := kernel' }) := onPart_of hdel
    by_cases hflags : (kernel'.wait i).wakeupFlags = WT_KBD
    · obtain ⟨r, t, hloop, hreads, hkernel⟩ :=
        @readLoop_spec _ _ _ _ i (len - ret) ret { s.shared with kernel := kernel' }
      refine ⟨r, t, kernel', ?_, ⟨hreads.accepted, hreads.bounded, hreads.stream⟩, hsound, hkernel⟩
      rw [awoken]
      refine (bind_of_ok hout).trans ?_
      rw [getState_bind, if_pos hflags]
      exact hloop
    · refine ⟨.done ret, { s.shared with kernel := kernel' }, kernel', ?_, ⟨rfl, id, rfl⟩, hsound,
        .inl ⟨⟨ret, rfl⟩, rfl⟩⟩
      rw [awoken]
      refine (bind_of_ok hout).trans ?_
      rw [getState_bind, if_neg hflags]
      rfl
  · cases herror

/-- The interrupt that stores a character finds the wait queue in order. -/
theorem devStdinWrite_returns (h : Waiting values s) (c : UInt8) :
    ∃ t, devStdinWrite c s.shared = .ok (.ok (), t) ∧ Sound values t.kernel (pcOf ∘ s.pc) := by
  by_cases hc : c = 0
  · refine ⟨s.shared, ?_, h⟩
    simp only [devStdinWrite, hc, ne_eq, not_true_eq_false, if_false]
    rfl
  · obtain ⟨kernel, hwake, hsound, _⟩ := wakeupAll_of (s.shared.kernel.queue .keyboard) h
      (fun _ hj => hj) (h.placed.nodup .keyboard) WT_KBD
    have hkey : WaitQueues.devStdinWrite s.shared.kernel = .ok (.ok (), kernel) := hwake
    have hsame : (store c s.shared).kernel = s.shared.kernel := store_kernel
    refine ⟨{ store c s.shared with kernel := kernel }, ?_, hsound⟩
    simp only [devStdinWrite, ne_eq, hc, not_false_eq_true, if_true, modifyState_bind]
    exact onPart_of (hsame ▸ hkey)

omit [DecidableEq ι] [DecidableEq κ] in
theorem note_kernel (c : UInt8) (a b : Input ι κ) : (note c a b).kernel = b.kernel := by
  by_cases hnote : c ≠ 0 ∧ a.pWpos - a.pRpos < STDIN_BUFSIZE
  · rw [note, if_pos hnote]
  · rw [note, if_neg hnote]

theorem step_waiting (h : Waiting values s) (hstep : Step s label t) : Waiting values t := by
  cases hstep with
  | @read i len r t hplace _ hread =>
      obtain ⟨r', t', hrun, _, hkernel⟩ := @readLoop_spec _ _ _ _ i len 0 s.shared
      cases hread.symm.trans hrun
      refine waiting_read ?_ hkernel
      have hpc : (pcOf ∘ s.pc) i = .running := congrArg pcOf hplace
      rw [← hpc, Function.update_eq_self]
      exact h
  | awoken hplace hrun hawoken =>
      obtain ⟨r', t', kernel, heq, _, hsound, hkernel⟩ := awoken_spec h hplace hrun
      cases hawoken.symm.trans heq
      exact waiting_read hsound hkernel
  | @arrive c r t hwrite =>
      obtain ⟨t', heq, hsound⟩ := devStdinWrite_returns h c
      cases hwrite.symm.trans heq
      rw [Waiting, seen, note_kernel]
      exact hsound
  | @start i call r t hplace _ _ hstart =>
      obtain ⟨kernel, hkernel, rfl⟩ := onPart_eq_ok hstart
      exact waiting_put rfl (sound_start h
        (congrArg pcOf hplace) hkernel)
  | @resume i pc r t hplace hrun hresume =>
      obtain ⟨kernel, hkernel, rfl⟩ := onPart_eq_ok hresume
      have hpc : pcOf (s.pc i) = pc := congrArg pcOf hplace
      have hagain : WaitQueues.resume i ((pcOf ∘ s.pc) i) s.shared.kernel = .ok (r, kernel) := by
        rw [Function.comp_apply, hpc]
        exact hkernel
      exact waiting_put rfl (sound_step h
        (.resume hrun hagain))
  | @born i r t hplace hborn =>
      obtain ⟨kernel, hkernel, rfl⟩ := onPart_eq_ok hborn
      exact waiting_put rfl (sound_step h
        (.born (congrArg pcOf hplace) hkernel))
  | @occur event r t _ hoccur =>
      obtain ⟨kernel, hkernel, rfl⟩ := onPart_eq_ok hoccur
      exact sound_step h (.occur hkernel)

/-- Whatever a process does but for the arrivals leaves the stream as it is. -/
theorem step_reads (h : Waiting values s) (hstep : Step s none t) : Reads s.shared t.shared := by
  cases hstep with
  | @read i len r t _ _ hread =>
      obtain ⟨r', t', hrun, hreads, _⟩ := @readLoop_spec _ _ _ _ i len 0 s.shared
      cases hread.symm.trans hrun
      exact hreads
  | awoken hplace hrun hawoken =>
      obtain ⟨r', t', kernel, heq, hreads, _⟩ := awoken_spec h hplace hrun
      cases hawoken.symm.trans heq
      exact hreads
  | start _ _ _ hstart =>
      obtain ⟨kernel, _, rfl⟩ := onPart_eq_ok hstart
      exact ⟨rfl, id, rfl⟩
  | resume _ _ hresume =>
      obtain ⟨kernel, _, rfl⟩ := onPart_eq_ok hresume
      exact ⟨rfl, id, rfl⟩
  | born _ hborn =>
      obtain ⟨kernel, _, rfl⟩ := onPart_eq_ok hborn
      exact ⟨rfl, id, rfl⟩
  | occur _ hoccur =>
      obtain ⟨kernel, _, rfl⟩ := onPart_eq_ok hoccur
      exact ⟨rfl, id, rfl⟩

/-- The guard of a run may be forgotten. -/
theorem run_anywhere (h : Run guard s₀ s) : Run Anywhere s₀ s := by
  induction h with
  | refl => exact .refl
  | step _ hstep _ ih => exact ih.step hstep fun _ _ => trivial

theorem step_bounded (h : Waiting values s) (hb : Bounded s.shared) (hstep : Step s label t) :
    Bounded t.shared := by
  match label with
  | none => exact (step_reads h hstep).bounded hb
  | some c =>
      cases hstep with
      | arrive hwrite => exact note_bounded hb hwrite

omit [DecidableEq ι] [DecidableEq κ] in
theorem waiting_of_starts (hvalues : ∀ k, 0 ≤ values k) (hstarts : Starts values s₀) :
    Waiting values s₀ :=
  sound_starts hvalues hstarts.kernel

theorem waiting_of_run (hvalues : ∀ k, 0 ≤ values k) (hstarts : Starts values s₀)
    (h : Run guard s₀ s) : Waiting values s := by
  induction h with
  | refl => exact waiting_of_starts hvalues hstarts
  | step _ hstep _ ih => exact step_waiting ih hstep

theorem bounded_of_run (hvalues : ∀ k, 0 ≤ values k) (hstarts : Starts values s₀)
    (h : Run guard s₀ s) : Bounded s.shared := by
  induction h with
  | refl =>
      rw [Bounded, hstarts.rpos, hstarts.wpos]
      exact ⟨le_rfl, Nat.zero_le _⟩
  | step hrun hstep _ ih => exact step_bounded (waiting_of_run hvalues hstarts hrun) ih hstep

theorem lossless_of_run (hvalues : ∀ k, 0 ≤ values k) (hstarts : Starts values s₀)
    (h : Run SparesOldest s₀ s) : Lossless s.shared := by
  induction h with
  | refl =>
      rw [Lossless, stream, unread, hstarts.rpos, hstarts.wpos, hstarts.handed, hstarts.accepted]
      rfl
  | @step s t label hrun hstep hguard ih =>
      have hwaiting := waiting_of_run hvalues hstarts hrun
      match label with
      | none =>
          have hreads := step_reads hwaiting hstep
          rw [Lossless, hreads.stream, hreads.accepted]
          exact ih
      | some c =>
          cases hstep with
          | arrive hwrite =>
              have hb := bounded_of_run hvalues hstarts hrun
              exact (lossless_note_iff hb ih hwrite).mpr (hguard c rfl)

/-- The buffer never holds more than it has room for, a character can always be stored, and the
readers get the accepted characters as long as each arrival spares the oldest unread one. -/
theorem stdin_lossless (hvalues : ∀ k, 0 ≤ values k) (hstarts : Starts values s₀)
    (h : Run Anywhere s₀ s) :
    Bounded s.shared ∧ (∀ c, ∃ t, devStdinWrite c s.shared = .ok (.ok (), t)) ∧
      (Run SparesOldest s₀ s → Lossless s.shared ∧
        ∀ c t, devStdinWrite c s.shared = .ok (.ok (), t) →
          (Lossless (note c s.shared t) ↔ SparesOldest s.shared c)) := by
  have hb := bounded_of_run hvalues hstarts h
  refine ⟨hb, fun c => ?_, fun hspares => ?_⟩
  · obtain ⟨t, hwrite, _⟩ := devStdinWrite_returns (waiting_of_run hvalues hstarts h) c
    exact ⟨t, hwrite⟩
  · have hlossless := lossless_of_run hvalues hstarts hspares
    exact ⟨hlossless, fun c t hwrite => lossless_note_iff hb hlossless hwrite⟩

end Runs

section Instances

/-- Two processes, and nothing to read. -/
def silent : System Bool Unit where
  shared := {
    kernel := oneUnit.shared
    stdinBuffer := fun _ => 0
    pRpos := 0
    pWpos := 0
    handed := []
    accepted := [] }
  pc _ := .outside .running

theorem silent_starts : Starts (fun _ => 1) silent where
  kernel := ⟨fun _ => .inl ⟨rfl, rfl⟩, fun _ => rfl, fun _ => rfl, fun _ => rfl, rfl, rfl,
    fun _ => rfl, fun _ => rfl, fun _ => rfl, fun _ => rfl⟩
  outside _ := ⟨.running, rfl⟩
  rpos := rfl
  wpos := rfl
  handed := rfl
  accepted := rfl

/-- A process waits for a character, gets the one that arrives, and waits for the next. -/
theorem stdin_lossless_silent : ∃ s, Run Anywhere silent s ∧ s.shared.handed = [(true, 97)] ∧
    Bounded s.shared ∧ (∀ c, ∃ t, devStdinWrite c s.shared = .ok (.ok (), t)) ∧
      (Run SparesOldest silent s → Lossless s.shared ∧
        ∀ c t, devStdinWrite c s.shared = .ok (.ok (), t) →
          (Lossless (note c s.shared t) ↔ SparesOldest s.shared c)) := by
  have hwaits : Run Anywhere silent _ := .step .refl
    (@Step.read _ _ _ _ silent true 2 _ _ rfl rfl rfl) (fun _ _ => trivial)
  have harrives := hwaits.step (@Step.arrive _ _ _ _ _ 97 _ _ rfl) (fun _ _ => trivial)
  have hreads := harrives.step (@Step.awoken _ _ _ _ _ true 2 0 _ _ rfl rfl rfl)
    (fun _ _ => trivial)
  exact ⟨_, hreads, rfl, stdin_lossless (by simp) silent_starts hreads⟩

/-- The same character has arrived `n` times, and nothing is read. -/
structure Filled (n : Nat) (s : System Bool Unit) : Prop where
  pc : s.pc = silent.pc
  kernel : s.shared.kernel = oneUnit.shared
  rpos : s.shared.pRpos = 0
  wpos : s.shared.pWpos = n
  handed : s.shared.handed = []
  buffer : 0 < n → s.shared.stdinBuffer 0 = 97
  accepted : s.shared.accepted = List.replicate n 97

theorem wake_nobody : WaitQueues.devStdinWrite oneUnit.shared = .ok (.ok (), oneUnit.shared) :=
  rfl

theorem write_filled {n : Nat} {s : System Bool Unit} (h : Filled n s) {c : UInt8} (hc : c ≠ 0) :
    devStdinWrite c s.shared =
      .ok (.ok (), { store c s.shared with kernel := oneUnit.shared }) := by
  have hkernel : (store c s.shared).kernel = oneUnit.shared := store_kernel.trans h.kernel
  simp only [devStdinWrite, ne_eq, hc, not_false_eq_true, if_true, modifyState_bind]
  exact onPart_of (hkernel.symm ▸ wake_nobody)

theorem run_filled (n : Nat) (hn : n ≤ STDIN_BUFSIZE) :
    ∃ s, Run SparesOldest silent s ∧ Filled n s := by
  induction n with
  | zero => exact ⟨silent, .refl, rfl, rfl, rfl, rfl, rfl, by simp, rfl⟩
  | succ n ih =>
      obtain ⟨s, hrun, h⟩ := ih (by omega)
      have hroom : s.shared.pWpos - s.shared.pRpos < STDIN_BUFSIZE := by
        rw [h.wpos]
        omega
      have hplace : s.shared.pWpos % STDIN_BUFSIZE = n := by
        rw [h.wpos]
        exact Nat.mod_eq_of_lt (by omega)
      refine ⟨_, hrun.step (.arrive (write_filled h (by decide : (97 : UInt8) ≠ 0))) ?_, ?_⟩
      · rintro c ⟨⟩
        exact .inr (.inl hroom)
      · rw [note, if_pos ⟨by decide, hroom⟩, store, if_pos hroom]
        refine ⟨h.pc, rfl, h.rpos, congrArg (· + 1) h.wpos, h.handed, fun _ => ?_, ?_⟩
        · change Function.update s.shared.stdinBuffer (s.shared.pWpos % STDIN_BUFSIZE) 97 0 = 97
          rw [hplace]
          rcases Nat.eq_zero_or_pos n with rfl | hpos
          · exact Function.update_self _ _ _
          · rw [Function.update_of_ne (by omega)]
            exact h.buffer hpos
        · change s.shared.accepted ++ [97] = _
          rw [h.accepted, List.replicate_succ']

/-- A character that arrives at a full buffer takes the place of the oldest one, and a reader
gets it instead. -/
theorem not_lossless_full : ∃ s, Run Anywhere silent s ∧ s.shared.handed = [(true, 98)] ∧
    s.shared.accepted.head? = some 97 ∧ ¬Lossless s.shared := by
  obtain ⟨s, hrun, h⟩ := run_filled STDIN_BUFSIZE le_rfl
  have hfull : ¬s.shared.pWpos - s.shared.pRpos < STDIN_BUFSIZE := by
    rw [h.rpos, h.wpos]
    decide
  let u : Input Bool Unit := { s.shared with
    kernel := oneUnit.shared
    stdinBuffer := Function.update s.shared.stdinBuffer (s.shared.pWpos % STDIN_BUFSIZE) 98 }
  have harrived : Run Anywhere silent { s with shared := u } := by
    have hstep := (run_anywhere hrun).step
      (.arrive (write_filled h (by decide : (98 : UInt8) ≠ 0))) (fun _ _ => trivial)
    rw [note, if_neg (fun hnote => hfull hnote.2), store, if_neg hfull] at hstep
    exact hstep
  have hfetch : devStdinRead true 1 u = .ok (.ok (.done 1), fetch true u) := by
    have hlt : u.pRpos < u.pWpos := by
      change s.shared.pRpos < s.shared.pWpos
      rw [h.rpos, h.wpos]
      decide
    rw [devStdinRead, readLoop, getState_bind, if_pos hlt]
    rfl
  have hread := harrived.step (.read (congrFun h.pc true) rfl hfetch) (fun _ _ => trivial)
  have hgot : (fetch true u).handed = [(true, 98)] := by
    change s.shared.handed ++ [(true, Function.update s.shared.stdinBuffer
      (s.shared.pWpos % STDIN_BUFSIZE) 98 (s.shared.pRpos % STDIN_BUFSIZE))] = [(true, 98)]
    rw [h.handed, h.wpos, h.rpos, Nat.mod_self, Nat.zero_mod, Function.update_self]
    rfl
  have hfirst : (fetch true u).accepted.head? = some 97 := by
    change s.shared.accepted.head? = some 97
    rw [h.accepted]
    rfl
  refine ⟨_, hread, hgot, hfirst, ?_⟩
  intro hlossless
  have hhead : (stream (fetch true u)).head? = some 97 := (congrArg List.head? hlossless).trans hfirst
  rw [stream, hgot] at hhead
  have hsame : (98 : UInt8) = 97 := Option.some.inj hhead
  exact absurd hsame (by decide)

end Instances

end Ucore.StdinRuns
