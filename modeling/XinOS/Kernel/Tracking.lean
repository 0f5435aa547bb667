import XinOS.Kernel.Depicted

/-!
# The functions agree

On lists of live objects a function of sched.c or timer.c does in memory what it does
to the objects, or it fails in the same way; only `malloc` can fail in memory alone.
-/

namespace XinOS.Kernel

open XinOS.Foundation XinOS.Page XinOS.Trap

variable {h : Heap} {g : Guard} {k k' : Image .rv64} {s s' : State Build.rv64.xlen}
variable {l m : List Nat} {p t : Nat}

/-! ## Linking in -/

theorem insertTask_live {w : Nat} {s s' : State w} {x : Ptr} {r : Int}
    (hok : insertTask s x = .ok (r, s')) :
    s'.liveTasks = s.liveTasks ∧ s'.liveTimers = s.liveTimers ∧ s'.msip = s.msip := by
  rw [insertTask] at hok
  split at hok
  · split_ifs at hok <;> cases hok <;> exact ⟨rfl, rfl, rfl⟩
  · split_ifs at hok
    · cases hok
      exact ⟨rfl, rfl, rfl⟩
    · split at hok <;> cases hok
      exact ⟨rfl, rfl, rfl⟩

theorem insertTask_ctx {w : Nat} {s s' : State w} {x : Ptr} {r : Int}
    (hok : insertTask s x = .ok (r, s')) (p : Ptr) : (s'.task p).ctx = (s.task p).ctx := by
  have hset : ∀ (s : State w) (y : Ptr) (q : Option Ptr),
      ((s.setTaskNext y q).task p).ctx = (s.task p).ctx := by
    intro s y q
    rw [State.setTaskNext, State.setTask_task]
    by_cases hy : p = y
    · rw [hy, Function.update_self]
    · rw [Function.update_of_ne hy]
  rw [insertTask] at hok
  split at hok
  · split_ifs at hok <;> cases hok <;> rfl
  · split_ifs at hok
    · cases hok
      exact hset _ _ _
    · split at hok <;> cases hok
      exact (hset _ _ _).trans (hset _ _ _)

theorem insertTimer_live {w : Nat} {s s' : State w} {x : Ptr}
    (hok : insertTimer s x = .ok s') :
    s'.liveTasks = s.liveTasks ∧ s'.liveTimers = s.liveTimers ∧ s'.msip = s.msip := by
  rw [insertTimer] at hok
  split at hok
  · cases hok
    exact ⟨rfl, rfl, rfl⟩
  · split_ifs at hok
    · cases hok
      exact ⟨rfl, rfl, rfl⟩
    · split at hok <;> cases hok
      exact ⟨rfl, rfl, rfl⟩

theorem Image.insertTimer_mem {b : Build} {k k' : Image b} {m : List Nat} {t : Nat}
    (htimers : k.Timers m) (hins : k.insertTimer t = .ok k') {x : Nat}
    (hx : ∀ r, r = t ∨ r ∈ m → x < r ∨ r + timerBytes b ≤ x) : k'.mem x = k.mem x := by
  have hset : ∀ (k : Image b) (r : Nat) (q : Option Ptr),
      (x < r ∨ r + timerBytes b ≤ x) → (k.setTimerNext r q).mem x = k.mem x := by
    intro k r q hout
    have hsame := Memory.SameOutside.store k.mem (wordBytes b) (r + timerNextField b)
      (q.getD 0)
    refine hsame x ?_
    unfold timerNextField
    unfold timerBytes at hout
    omega
  rw [Image.insertTimer] at hins
  cases hfirst : k.firstTimer with
  | none =>
      rw [hfirst] at hins
      cases hins
      rfl
  | some first =>
      rw [hfirst] at hins
      dsimp only at hins
      split_ifs at hins
      · cases hins
        exact hset k t _ (hx t (.inl rfl))
      · split at hins
        · cases hins
        · next it prev hwalk =>
            have hpath : Path k.timerNext (some first) m none := hfirst ▸ htimers
            have hprev : prev ∈ m := by
              rcases hpath.walk_prev hwalk with rfl | hmem
              · exact hpath.first_mem
              · exact hmem
            cases hins
            show ((k.setTimerNext prev (some t)).setTimerNext t it).mem x = k.mem x
            rw [hset _ t _ (hx t (.inl rfl)), hset _ prev _ (hx prev (.inr hprev))]

namespace Resides

theorem tasks (hr : Resides h g k s) (hpath : Path s.taskNext s.firstTask l none)
    (hlive : l ⊆ s.liveTasks) : k.Tasks l := by
  rw [Image.Tasks, ← hr.depicts.firstTask]
  exact hpath.congr fun r hr' => hr.depicts.taskNext (hlive hr')

theorem timers (hr : Resides h g k s) (hpath : Path s.timerNext s.firstTimer m none)
    (hlive : m ⊆ s.liveTimers) : k.Timers m := by
  rw [Image.Timers, ← hr.depicts.firstTimer]
  exact hpath.congr fun r hr' => hr.depicts.timerNext (hlive hr')

theorem insertTask (hr : Resides h g k s) (hh : Heap64 h) (hlist : TaskList s l)
    (hroom : l.length < maxTaskNum) (hlive : l ⊆ s.liveTasks) (hp : p ∈ s.liveTasks) :
    ∃ k' s', k.insertTask p = .ok (0, k') ∧ Kernel.insertTask s p = .ok (0, s') ∧
      Resides h g k' s' := by
  obtain ⟨k', s', hins, hins', hd⟩ :=
    hr.depicts.insertTask (hr.spread hh) hlist hroom hlive hp
  obtain ⟨htasks, htimers, -⟩ := insertTask_live hins'
  have hctx : ctxField .rv64 ≤ taskBytes .rv64 := by decide
  have hkept : ∀ x, (∀ q : Nat, q ∈ s.liveTasks →
      x < q + nextField ∨ q + ctxField .rv64 ≤ x) → k'.mem x = k.mem x := fun x hx =>
    Image.insertTask_mem (hr.tasks hlist.path hlive) hins fun q hq =>
      hx q (hq.elim (fun heq => heq ▸ hp) (hlive ·))
  refine ⟨k', s', hins, hins', hr.step hd
    (sameTables_iff.mpr fun x hx => hkept x fun q hq => ?_)
    (fun q _ hq x hlo hhi => hkept x fun r hr' => ?_) htasks htimers⟩
  · by_contra hin
    exact hr.offTables_task hh hq (by omega) (by omega) hx
  · by_cases hqr : r = q
    · omega
    · have hapart := (hr.spread hh).tasks r q hr' hq hqr
      omega

theorem insertTimer (hr : Resides h g k s) (hh : Heap64 h)
    (hpath : Path s.timerNext s.firstTimer m none) (hshort : m.length < walkFuel)
    (hlive : m ⊆ s.liveTimers) (ht : t ∈ s.liveTimers) :
    ∃ k' s', k.insertTimer t = .ok k' ∧ Kernel.insertTimer s t = .ok s' ∧
      Resides h g k' s' := by
  obtain ⟨k', s', hins, hins', hd⟩ :=
    hr.depicts.insertTimer (hr.spread hh) hpath hshort hlive ht
  obtain ⟨htasks, htimers, -⟩ := insertTimer_live hins'
  have hkept : ∀ x, (∀ r : Nat, r ∈ s.liveTimers →
      x < r ∨ r + timerBytes .rv64 ≤ x) → k'.mem x = k.mem x := fun x hx =>
    Image.insertTimer_mem (hr.timers hpath hlive) hins fun r hr' =>
      hx r (hr'.elim (fun heq => heq ▸ ht) (hlive ·))
  refine ⟨k', s', hins, hins', hr.step hd
    (sameTables_iff.mpr fun x hx => hkept x fun r hr' => ?_)
    (fun q _ hq x hlo hhi => hkept x fun r hr' => ?_) htasks htimers⟩
  · by_contra hin
    exact hr.offTables_timer hh hr' (by omega) (by omega) hx
  · have hapart := (hr.spread hh).across q r hq hr'
    omega

/-! ## Linking out -/

theorem unlink (hr : Resides h g k s) (hh : Heap64 h) (hlive : l ⊆ s.liveTasks)
    (hpath : Path s.taskNext s.firstTask l none) {first prev : Nat} (hp : p ∈ l)
    (hfirst : first ∈ l) (hprev : prev ∈ l) :
    Resides h g
      (if k.taskNumber p = k.taskNumber first then
        { k with firstTask := k.taskNext first }
      else k.setTaskNext prev (k.taskNext p))
      (if (s.task p).taskId = (s.task first).taskId then
        { s with firstTask := s.taskNext first }
      else s.setTaskNext prev (s.taskNext p)) := by
  have hnext : ∀ q : Nat, q ∈ l → ∀ r, s.taskNext q = some r → r ∈ s.liveTasks :=
    fun q hq r hqr => hlive (hpath.next_mem hq hqr)
  rw [hr.depicts.taskNumber (hlive hp), hr.depicts.taskNumber (hlive hfirst),
    hr.depicts.taskNext (hlive hp), hr.depicts.taskNext (hlive hfirst)]
  split_ifs
  · exact { hr with depicts := hr.depicts.setFirstTask _ }
  · exact hr.setTaskNext hh (hlive hprev) (hr.storable_task hh (hnext p hp))

theorem takeTask (hr : Resides h g k s) (hh : Heap64 h) (hl : TaskInv s l) :
    Agree (fun r r' => r.1 = r'.1 ∧ Resides h g r.2 r'.2) k.takeTask (Kernel.takeTask s) := by
  have hlive : l ⊆ s.liveTasks := fun _ hq => hl.mem_live.mpr hq
  rw [Image.takeTask, Kernel.takeTask, ← hr.depicts.firstTask]
  cases hfirst : s.firstTask with
  | none => exact .ok ⟨rfl, hr⟩
  | some first =>
      have hpath : Path s.taskNext (some first) l none := hfirst ▸ hl.path
      have hsearch := hr.walk_tasks hlive hpath
        (fun it => decide ((s.task it).state = .sleeping))
        (fun it => decide (k.taskState it = sleepingState))
        fun r hr' => decide_eq_decide.mpr (hr.depicts.taskState_iff (hlive hr'))
      obtain ⟨it, prev, hwalk, hit, hprev⟩ := hpath.walk_ends
        (fun it => decide ((s.task it).state = .sleeping)) hl.short
      simp -zeta only [hsearch, hwalk]
      cases it with
      | none => exact .ok ⟨rfl, hr⟩
      | some t =>
          have ht := hit t rfl
          have hlower := hr.lowerPriority hh (hlive ht)
          have hrest : (Kernel.lowerPriority s t).liveTasks = s.liveTasks := by
            rw [lowerPriority_eq]
          have hunlink := hlower.unlink hh (l := l) (hrest ▸ hlive)
            (by rw [lowerPriority_taskNext, lowerPriority_eq]; exact hl.path) ht
            hpath.first_mem hprev
          have hcount : 0 < s.tasksNum := by
            have hpos := List.length_pos_of_mem ht
            have hnum := hl.count
            omega
          have hdown := hunlink.countDown (by split_ifs <;> rwa [lowerPriority_eq])
          exact .ok ⟨rfl, hdown⟩

theorem popTask (hr : Resides h g k s) (hh : Heap64 h) (hl : TaskInv s l) :
    Agree (fun r r' => r.1 = r'.1 ∧ Resides h g r.2 r'.2) k.popTask (Kernel.popTask s) := by
  have htake := hr.takeTask hh hl
  rw [Image.popTask, Kernel.popTask]
  rcases hl.popTask_cases with ⟨-, hnone, -⟩ |
    ⟨pre, t, post, s₁, s', rfl, hpre, hawake, hsome, hinsert, -⟩
  · obtain ⟨⟨_, k₁⟩, heq, rfl, hr₁⟩ := htake.of_right hnone
    rw [heq, hnone]
    exact .ok ⟨rfl, hr₁⟩
  · obtain ⟨⟨_, k₁⟩, heq, rfl, hr₁⟩ := htake.of_right hsome
    -- the list between `take_task` and `insert_task`
    obtain ⟨s₂, hsome₂, hrel, hqueue, -⟩ :=
      hl.queue.takeTask_some hl.short hl.ids hpre hawake
    obtain rfl : s₁ = s₂ :=
      congrArg Prod.snd (Except.ok.inj (hsome.symm.trans hsome₂))
    have hlive : s₁.liveTasks = s.liveTasks := by
      rw [hrel.rest, lowerPriority_eq]
    have hmem : ∀ q ∈ pre ++ t :: post, q ∈ s₁.liveTasks := fun q hq =>
      hlive ▸ hl.mem_live.mpr hq
    have hroom := hl.room
    simp only [List.length_append, List.length_cons] at hroom
    have hlist : TaskList s₁ (pre ++ post) := hqueue.toList (by
      rw [List.length_append]
      omega)
    obtain ⟨k₂, s₂, hins, hins', hr₂⟩ := hr₁.insertTask hh hlist
      (by rw [List.length_append]; omega)
      (fun q hq => hmem q (by
        rcases List.mem_append.mp hq with hq | hq <;> simp [hq])) (hmem t (by simp))
    rw [heq, hsome]
    simp only [hins, hins']
    exact .ok ⟨rfl, hr₂⟩

theorem schedule (hr : Resides h g k s) (hh : Heap64 h) (hl : TaskInv s l) :
    Agree (fun r r' => Resides h g r.1 r'.1 ∧ r.2 = r'.2) k.schedule (Kernel.schedule s) := by
  have hpop := hr.popTask hh hl
  rw [Image.schedule, Kernel.schedule, hr.depicts.tasksNum]
  split_ifs
  · exact .ok ⟨hr, rfl⟩
  · generalize k.popTask = x at hpop
    generalize Kernel.popTask s = y at hpop
    cases hpop with
    | error e => exact .error e
    | @ok a c hac =>
        obtain ⟨q, k₁⟩ := a
        obtain ⟨q', s₁⟩ := c
        obtain ⟨rfl, hr₁⟩ := hac
        cases q with
        | none => exact .ok ⟨{ hr₁ with depicts := hr₁.depicts.setCurTask none }, rfl⟩
        | some t => exact .ok ⟨{ hr₁ with depicts := hr₁.depicts.setCurTask (some t) }, rfl⟩

theorem unlinkTask (hr : Resides h g k s) (hh : Heap64 h) (hl : TaskInv s l) (hp : p ∈ l) :
    Agree (Resides h g) (k.unlinkTask p) (Kernel.unlinkTask s p) := by
  have hlive : l ⊆ s.liveTasks := fun _ hq => hl.mem_live.mpr hq
  rw [Image.unlinkTask, Kernel.unlinkTask, ← hr.depicts.firstTask]
  cases hfirst : s.firstTask with
  | none => exact .error _
  | some first =>
      have hpath : Path s.taskNext (some first) l none := hfirst ▸ hl.path
      have hmem := hpath.first_mem
      have hsearch := hr.walk_tasks hlive hpath
        (fun it => decide ((s.task it).taskId ≠ (s.task p).taskId))
        (fun it => decide (k.taskNumber it ≠ (s.task p).taskId))
        fun r hr' => by rw [hr.depicts.taskNumber (hlive hr')]
      obtain ⟨it, prev, hwalk, -, hprev⟩ := hpath.walk_ends
        (fun it => decide ((s.task it).taskId ≠ (s.task p).taskId)) hl.short
      have hunlink := hr.unlink hh hlive hl.path hp hmem hprev
      simp only [hsearch, hwalk, hr.depicts.taskNumber (hlive hp),
        hr.depicts.taskNumber (hlive hmem)] at hunlink ⊢
      split_ifs at hunlink ⊢
      · exact .ok hunlink
      · exact .ok hunlink

/-! ## Giving back -/

theorem release (hr : Resides h g k s) (hh : Heap64 h) {ps ts : List Ptr} {a : Allocation}
    (ha : a ∈ objects s.liveTasks s.liveTimers) (hps : ps ⊆ s.liveTasks)
    (hts : ts ⊆ s.liveTimers) (hg : ∀ q : Nat, q ∈ g.tasks → q ∈ ps)
    (hperm : ((objects s.liveTasks s.liveTimers).erase a).Perm (objects ps ts)) :
    ∃ k', k.release h a.addr = .ok k' ∧
      Resides h g k' { s with liveTasks := ps, liveTimers := ts } := by
  obtain ⟨m', hfree, hinv, hkept⟩ := hr.heap.free hh.fits ha
  have hin : ∀ c ∈ objects s.liveTasks s.liveTimers, h.allocStart ≤ c.addr := fun c hc =>
    (hr.heap.heap.shaped c hc).inHeap
  have htask : ∀ q : Nat, q ∈ ps → ∀ x, q ≤ x → x < q + taskBytes .rv64 →
      m' x = k.mem x := fun q hq x hlo hhi =>
    hkept x ((hin _ (task_mem_objects (hps hq))).trans hlo)
      (hr.offTables_task hh (hps hq) hlo hhi)
  have htimer : ∀ t : Nat, t ∈ ts → ∀ x, t ≤ x → x < t + timerBytes .rv64 →
      m' x = k.mem x := fun t ht x hlo hhi =>
    hkept x ((hin _ (timer_mem_objects (hts ht))).trans hlo)
      (hr.offTables_timer hh (hts ht) hlo hhi)
  exact ⟨{ k with mem := m' }, by rw [Image.release, hfree],
    { depicts := hr.depicts.restrict hps hts htask htimer
      heap := hinv.perm hperm
      live := hg
      saved := fun q hq x hlo hhi => (htask q (hg q hq) x (by omega) hhi).trans
        (hr.saved q hq x hlo hhi) }⟩

end Resides

theorem objects_erase_task {ps ts : List Ptr} (hp : p ∈ ps) :
    ((objects ps ts).erase ⟨p, taskInfoSize⟩).Perm (objects (ps.erase p) ts) := by
  have hsplit : (objects ps ts).Perm (⟨p, taskInfoSize⟩ :: objects (ps.erase p) ts) :=
    ((List.perm_cons_erase hp).map _).append_right _
  exact (hsplit.erase _).trans (by rw [List.erase_cons_head])

theorem objects_erase_timer {ps ts : List Ptr} (ht : t ∈ ts) :
    ((objects ps ts).erase ⟨t, timerSize⟩).Perm (objects ps (ts.erase t)) := by
  have hsplit : (objects ps ts).Perm (⟨t, timerSize⟩ :: objects ps (ts.erase t)) :=
    (((List.perm_cons_erase ht).map _).append_left _).trans List.perm_middle
  exact (hsplit.erase _).trans (by rw [List.erase_cons_head])

/-- What `timer_check` finds and leaves; it deletes a timer only to wake a task. -/
structure CheckedAlike (h : Heap) (g : Guard) (k : Image .rv64) (s : State Build.rv64.xlen)
    (r : Option Ptr × Image .rv64 × List (Nat × Nat))
    (r' : Option Ptr × State Build.rv64.xlen × List (Nat × Nat)) : Prop where
  task : r.1 = r'.1
  calls : r.2.2 = r'.2.2
  resides : Resides h g r.2.1 r'.2.1
  quiet : r.1 = none → r.2.1 = k ∧ r'.2.1 = s
  live : ∀ p, r.1 = some p → p ∈ s.liveTasks
  tasks : r'.2.1.liveTasks = s.liveTasks
  timers : r'.2.1.liveTimers ⊆ s.liveTimers
  start : r'.2.1.curTaskStartTick = s.curTaskStartTick
  msip : r'.2.1.msip = s.msip

def WakesLive {w : Nat} (s : State w) (m : List Ptr) : Prop :=
  ∀ t ∈ m, (s.timer t).func = none → ∀ p, (s.timer t).task = some p → p ∈ s.liveTasks

namespace Resides

theorem freeTask (hr : Resides h g k s) (hh : Heap64 h) (hp : p ∈ s.liveTasks)
    (hg : p ∉ g.tasks) :
    ∃ k', k.release h p = .ok k' ∧ Resides h g k' (freeTask s p) :=
  hr.release hh (task_mem_objects hp) List.erase_subset (fun _ ht => ht)
    (fun q hq => (List.mem_erase_of_ne fun heq : q = p => hg (heq ▸ hq)).mpr
      (hr.live q hq))
    (objects_erase_task hp)

theorem freeTimer (hr : Resides h g k s) (hh : Heap64 h) (ht : t ∈ s.liveTimers) :
    ∃ k', k.release h t = .ok k' ∧ Resides h g k' (freeTimer s t) :=
  hr.release hh (timer_mem_objects ht) (fun _ hp => hp) List.erase_subset hr.live
    (objects_erase_timer ht)

/-! ## Timers -/

theorem timerDelete (hr : Resides h g k s) (hh : Heap64 h) (hm : TimerInv s m)
    (t : Option Ptr) :
    Agree (Resides h g) (k.timerDelete h t) (Kernel.timerDelete s t) := by
  have hlive : m ⊆ s.liveTimers := fun _ hq => hm.mem_live.mpr hq
  have hhead := hr.depicts.firstTimer.symm
  cases hfirst : s.firstTimer with
  | none =>
      simp only [Image.timerDelete, Kernel.timerDelete, hhead, hfirst]
      exact .ok hr
  | some first =>
      cases t with
      | none =>
          simp only [Image.timerDelete, Kernel.timerDelete, hhead, hfirst]
          exact .ok hr
      | some t =>
          have hpath : Path s.timerNext (some first) m none := hfirst ▸ hm.path
          simp only [Image.timerDelete, Kernel.timerDelete, hhead, hfirst,
            Image.deleteFrom, Kernel.deleteFrom]
          split_ifs with ht
          · subst ht
            have hmem := hlive hpath.first_mem
            have hr₁ : Resides h g { k with firstTimer := k.timerNext t }
                { s with firstTimer := s.timerNext t } := by
              rw [hr.depicts.timerNext hmem]
              exact { hr with depicts := hr.depicts.setFirstTimer _ }
            obtain ⟨k', hfree, hr'⟩ := hr₁.freeTimer hh hmem
            rw [hfree]
            exact .ok hr'
          · obtain ⟨it, prev, hwalk, hit, hprev⟩ := hpath.walk_ends
              (fun it => decide (it ≠ t)) hm.short
            rw [hr.walk_timers hlive hpath, hwalk]
            cases it with
            | none => exact .error _
            | some it =>
                have hmem := hlive (hit it rfl)
                have hstop := Path.walk_stops hwalk
                obtain rfl : it = t := by simpa using hstop
                have hr₁ := hr.setTimerNext hh (hlive hprev)
                  (hr.storable_timer hh (q := s.timerNext it)
                    fun r hr' => hlive (hpath.next_mem (hit it rfl) hr'))
                obtain ⟨k', hfree, hr'⟩ := hr₁.freeTimer hh hmem
                dsimp only
                rw [hr.depicts.timerNext hmem, hfree]
                exact .ok hr'

theorem timerCheckLoop (hr : Resides h g k s) (hh : Heap64 h) (hm : TimerInv s m)
    (hwakes : WakesLive s m) (fuel : Nat) {it : Option Ptr} {post : List Ptr}
    (hpath : Path s.timerNext it post none) (hpost : post ⊆ m) :
    Agree (CheckedAlike h g k s) (k.timerCheckLoop h fuel it)
      (Kernel.timerCheckLoop s fuel it) := by
  induction fuel generalizing it post with
  | zero => exact .error _
  | succ fuel ih =>
      cases it with
      | none =>
          exact .ok ⟨rfl, rfl, hr, fun _ => ⟨rfl, rfl⟩, nofun, rfl, fun _ ht => ht, rfl,
            rfl⟩
      | some it =>
          cases post with
          | nil => cases hpath
          | cons t rest =>
              obtain ⟨hit, hrest⟩ := hpath
              obtain rfl : it = t := Option.some.inj hit
              have hmem : it ∈ m := hpost List.mem_cons_self
              have hlive := hm.mem_live.mpr hmem
              obtain ⟨htimeout, htask, hfunc, hargs⟩ := hr.depicts.timerFields hlive
              rw [Image.timerCheckLoop, Kernel.timerCheckLoop, htimeout, htask, hfunc,
                hargs, hr.depicts.ticks, hr.depicts.timerNext hlive]
              split_ifs with hdue
              swap
              · exact .ok ⟨rfl, rfl, hr, fun _ => ⟨rfl, rfl⟩, nofun, rfl, fun _ ht => ht,
                  rfl, rfl⟩
              cases hq : (s.timer it).task with
              | none => exact .error _
              | some q =>
                  cases hf : (s.timer it).func with
                  | some func =>
                      have hloop := ih hrest fun r hr' => hpost (List.mem_cons_of_mem _ hr')
                      simp only [deref, reduceCtorEq, and_false, if_false]
                      generalize k.timerCheckLoop h fuel (s.timerNext it) = x at hloop
                      generalize Kernel.timerCheckLoop s fuel (s.timerNext it) = y at hloop
                      cases hloop with
                      | error e => exact .error e
                      | ok hab =>
                          exact .ok { hab with calls := congrArg (_ :: ·) hab.calls }
                  | none =>
                      have hq' := hwakes it hmem hf q hq
                      simp only [deref, and_true, hr.depicts.taskState_iff hq']
                      split_ifs
                      · obtain ⟨s₁, hdelete, hrel, -⟩ := hm.timerDelete_spec hmem
                        obtain ⟨k₁, hdelete', hr₁⟩ :=
                          (hr.timerDelete hh hm (some it)).of_right hdelete
                        simp only [hdelete, hdelete']
                        refine .ok ⟨rfl, rfl, hr₁, nofun, fun p hp => ?_, ?_, ?_, ?_, ?_⟩
                        · cases hp
                          exact hq'
                        all_goals dsimp only
                        all_goals rw [hrel.rest]
                        exact List.erase_subset
                      · exact .error _

theorem timerCheck (hr : Resides h g k s) (hh : Heap64 h) (hm : TimerInv s m)
    (hwakes : WakesLive s m) :
    Agree (CheckedAlike h g k s) (k.timerCheck h) (Kernel.timerCheck s) := by
  rw [Image.timerCheck, Kernel.timerCheck, ← hr.depicts.firstTimer]
  exact hr.timerCheckLoop hh hm hwakes walkFuel hm.path fun _ ht => ht

/-! ## Creating -/

theorem overwriteTask (hr : Resides h g k s) (hp : p ∉ s.liveTasks) (contents : TaskInfo) :
    Resides h g k (s.setTask p contents) where
  depicts := { hr.depicts with
    task := fun q hq =>
      (s.setTask_of_notMem hp contents q hq).trans (hr.depicts.task q hq) }
  heap := hr.heap
  live := hr.live
  saved := hr.saved

theorem newObject (hr : Resides h g k s) (hh : Heap64 h) {size : Nat} {mem : Memory}
    (hsize : size = taskInfoSize ∨ size = timerSize)
    (hmalloc : malloc h size k.mem = (some p, mem)) (words : List Memory.Word)
    (hin : ∀ f ∈ words, f.offset + f.size ≤ size) :
    NewObject .rv64 s.liveTasks s.liveTimers k.mem mem p size ∧
      ObjectInv h ⟨mem.storeAll p words,
        ⟨p, size⟩ :: objects s.liveTasks s.liveTimers⟩ ∧
      ∀ q : Nat, q ∈ s.liveTasks → ∀ x, q ≤ x → x < q + taskBytes .rv64 →
        mem.storeAll p words x = k.mem x := by
  have hheap := hr.heap.malloc hh.fits (by rw [hh.xlen]; decide) hsize hmalloc
  have hnew := malloc_newObject hh.xlen hh.fits hr.heap (fun _ hq => task_mem_objects hq)
    (fun _ ht => timer_mem_objects ht) hsize hmalloc
  have hout := Memory.SameOutside.storeAll mem p hin
  refine ⟨hnew, hheap.sameTables (sameTables_of_outside hout fun x hlo hhi =>
    hheap.offTables hh.fits List.mem_cons_self hlo hhi), fun q hq x hlo hhi => ?_⟩
  have hapart := hnew.tasks q hq
  exact (hout x (by omega)).trans (hnew.keptTasks q hq x hlo hhi)

theorem fresh_of_newObject {mem : Memory} {size : Nat} (hpos : 0 < size)
    (hnew : NewObject .rv64 s.liveTasks s.liveTimers k.mem mem p size) : s.Fresh p := by
  obtain ⟨hzero, hlt⟩ := hnew.addr p rfl
  have htask : 0 < taskBytes .rv64 := by decide
  have htimer : 0 < timerBytes .rv64 := by decide
  refine ⟨hzero, hlt, fun hp => ?_, fun hp => ?_⟩
  · have hapart := hnew.tasks p hp
    omega
  · have hapart := hnew.timers p hp
    omega

theorem timerCreate (hr : Resides h g k s) (hh : Heap64 h) (hm : TimerInv s m)
    (hcur : ∀ p, s.curTask = some p → p ∈ s.liveTasks) {mem : Memory}
    (hmalloc : malloc h (timerBytes .rv64) k.mem = (some t, mem))
    (func args timeout : BitVec Build.rv64.xlen) :
    s.Fresh t ∧ ∃ k' s', k.timerCreate h func args timeout = .ok (some t, k') ∧
      Kernel.timerCreate s t (toPtr func) args.toNat timeout = .ok s' ∧
      Resides h g k' s' ∧ s'.liveTasks = s.liveTasks ∧ s'.msip = s.msip := by
  obtain ⟨hnew, hheap, hkept⟩ := hr.newObject hh (.inr rfl) hmalloc
    (k.timerWords func args timeout) Image.timerWords_inside
  have hfresh := fresh_of_newObject (by decide) hnew
  -- the state in which `insert_timer` is called
  let k₀ : Image .rv64 := { k with mem := mem.storeAll t (k.timerWords func args timeout) }
  have hother : ∀ r ∈ s.liveTimers,
      (armTimer s t (toPtr func) args.toNat timeout).timer r = s.timer r :=
    s.setTimer_of_notMem hfresh.2.2.2 _
  have hfilled : Depicts k₀ s := hnew.depicts hr.depicts Image.timerWords_inside
  have hr₀ : Resides h g k₀ (armTimer s t (toPtr func) args.toNat timeout) := by
    refine ⟨{ hfilled with timer := fun r hmem => ?_ }, hheap.perm ?_, hr.live,
      fun q hq x hlo hhi => ?_⟩
    · rcases List.mem_cons.mp hmem with rfl | hmem
      · refine (Function.update_self ..).trans ?_
        rw [readTimer_timerWords (hr.depicts.curTask ▸ hr.storable_task hh hcur),
          ← hr.depicts.curTask, ← hr.depicts.ticks]
      · exact (hother r hmem).trans (hfilled.timer r hmem)
    · exact List.perm_middle.symm
    · exact (hkept q (hr.live q hq) x (by omega) hhi).trans (hr.saved q hq x hlo hhi)
  have hpath : Path (armTimer s t (toPtr func) args.toNat timeout).timerNext
      (armTimer s t (toPtr func) args.toNat timeout).firstTimer m none :=
    hm.path.congr fun r hr' => congrArg Timer.next (hother r (hm.mem_live.mpr hr'))
  obtain ⟨k', s', hins, hins', hr'⟩ := hr₀.insertTimer hh hpath hm.short
    (fun r hr' => List.mem_cons_of_mem _ (hm.mem_live.mpr hr')) List.mem_cons_self
  obtain ⟨htasks, -, hmsip⟩ := insertTimer_live hins'
  refine ⟨hfresh, k', s', ?_, hins', hr', htasks, hmsip⟩
  rw [Image.timerCreate, hmalloc]
  simp only [deref]
  rw [hins]

theorem taskCreate (hr : Resides h g k s) (hh : Heap64 h) (hl : TaskInv s l)
    {taskStack : Nat} (hstack : taskStack + maxTaskNum * stackSize ≤ 2 ^ 64)
    {mem : Memory} (hroom : s.tasksNum < maxTaskNum)
    (hmalloc : malloc h (taskBytes .rv64) k.mem = (some p, mem))
    (a : Image.TaskCall .rv64) :
    s.Fresh p ∧ ∃ k' s', k.taskCreate h taskStack a = .ok (0, k') ∧
      Kernel.taskCreate taskStack (s.setTask p (readTask .rv64 mem p)) p a.args =
        .ok (0, s') ∧
      Resides h g k' s' ∧ s'.msip = s.msip ∧ p ∈ s'.liveTasks ∧
      (s'.task p).ctx =
        (startInfo taskStack (s.setTask p (readTask .rv64 mem p)) (readTask .rv64 mem p)
          a.args).ctx := by
  obtain ⟨hnew, hheap, hkept⟩ := hr.newObject hh (.inl rfl) hmalloc
    (k.taskWords taskStack a) Image.taskWords_inside
  have hfresh := fresh_of_newObject (by decide) hnew
  have hoff : p ∉ s.liveTasks := hfresh.2.2.1
  have hcount : s.tasksNum = l.length := hl.count
  have hshort : l.length < maxTaskNum := by omega
  let s₁ := s.setTask p (readTask .rv64 mem p)
  have hr₁ : Resides h g k s₁ := hr.overwriteTask hoff _
  have hstack' : stackTop taskStack s₁.tasksNum < 2 ^ Build.rv64.xlen := by
    show stackTop taskStack s.tasksNum < 2 ^ 64
    rw [hcount, stackTop]
    unfold maxTaskNum stackSize at *
    omega
  -- the state in which `insert_task` is called
  let k₀ : Image .rv64 :=
    { k with mem := mem.storeAll p (k.taskWords taskStack a), taskId := k.taskId + 1 }
  have hother : ∀ q ∈ s.liveTasks, (admitTask taskStack s₁ p a.args).task q = s.task q := by
    intro q hq
    exact (s₁.setTask_of_notMem hoff _ q hq).trans (s.setTask_of_notMem hoff _ q hq)
  have hfilled : Depicts { k with mem := mem.storeAll p (k.taskWords taskStack a) } s :=
    hnew.depicts hr.depicts Image.taskWords_inside
  have hr₀ : Resides h g k₀ (admitTask taskStack s₁ p a.args) := by
    refine ⟨{ hfilled with task := fun q hq => ?_, taskId := ?_ }, hheap,
      fun q hq => List.mem_cons_of_mem _ (hr.live q hq), fun q hq x hlo hhi => ?_⟩
    · rcases List.mem_cons.mp hq with rfl | hq
      · refine (Function.update_self ..).trans ?_
        rw [readTask_taskWords hr₁.depicts mem q hstack' a, State.setTask_task,
          Function.update_self]
      · exact (hother q hq).trans (hfilled.task q hq)
    · exact congrArg (· + 1) hr.depicts.taskId
    · exact (hkept q (hr.live q hq) x (by omega) hhi).trans (hr.saved q hq x hlo hhi)
  have hlist : TaskList (admitTask taskStack s₁ p a.args) l :=
    hl.toTaskList.congr (fun q hq => hother q (hl.mem_live.mpr hq)) rfl rfl
  obtain ⟨k', s', hins, hins', hr'⟩ := hr₀.insertTask hh hlist hshort
    (fun q hq => List.mem_cons_of_mem _ (hl.mem_live.mpr hq)) List.mem_cons_self
  have hroom' : ¬k.tasksNum.toInt ≥ maxTaskNum := by
    rw [← hr.depicts.tasksNum]
    omega
  obtain ⟨hlive, -, hmsip⟩ := insertTask_live hins'
  refine ⟨hfresh, k', s', ?_, ?_, hr', hmsip, hlive ▸ List.mem_cons_self, ?_⟩
  · rw [Image.taskCreate, if_neg hroom', hmalloc]
    simp only [deref]
    rw [hins]
    rfl
  · have hroom₁ : ¬s₁.tasksNum ≥ maxTaskNum := not_le.mpr hroom
    rw [Kernel.taskCreate, if_neg hroom₁, hins']
    rfl
  · have hfilled : (admitTask taskStack s₁ p a.args).task p =
        startInfo taskStack s₁ (readTask .rv64 mem p) a.args := by
      rw [admitTask, State.setTask_task, Function.update_self, State.setTask_task,
        Function.update_self]
    rw [insertTask_ctx hins' p, hfilled]

end Resides

end XinOS.Kernel
