import OsAssignments.Interceptor.Interleaving

/-!
# Serialisable commands

Any number of commands run interleaved, one locked section after another. They are
serialisable as long as the context that a command has checked still holds when it makes its
change, and no system call is released between the two sections of an intercept.
-/

namespace OsAssignments.Interceptor

open Code

variable {N : Numbers} {n : Nat} {calls : Fin n → Call} {k₀ : Kernel}

/-- A command is about to put the interceptor into the table for a system call. -/
def Installs (calls : Fin n → Call) (p : Pool Lock Kernel Int n) (s : Nat) : Prop :=
  ∃ j, (calls j).index = s ∧ p.code j = installInterceptor s

/-- The condition under which a step cannot disturb another command: when a command makes its
change, the context that it checked still holds, and what it releases is not about to get the
interceptor. -/
def Undisturbed (calls : Fin n → Call) (p : Pool Lock Kernel Int n) (i : Fin n) : Prop :=
  p.code i = perform (calls i) →
    checkContext p.state (calls i) = none ∧
      (Request.ofInt (calls i).cmd = some .release → ¬ Installs calls p (calls i).index)

theorem ret_ne (r : Int) (s : Nat) : (.ret r : KernelM Int) ≠ installInterceptor s :=
  fun h => by cases h

theorem runCommand_ne (c : Call) (s : Nat) : runCommand c ≠ installInterceptor s :=
  fun h => Lock.noConfusion (lock.inj h).1

theorem perform_ne (c : Call) (s : Nat) : perform c ≠ installInterceptor s := by
  rw [perform]
  cases Request.ofInt c.cmd with
  | none => exact ret_ne 0 s
  | some r =>
    cases r with
    | intercept => exact fun h => Lock.noConfusion (lock.inj h).1
    | release => exact fun h => Lock.noConfusion (lock.inj h).1
    | startMonitoring => exact fun h => Lock.noConfusion (lock.inj h).1
    | stopMonitoring => exact fun h => Lock.noConfusion (lock.inj h).1

theorem runCommand_ne_ret (c : Call) (r : Int) : runCommand c ≠ .ret r := fun h => by cases h

/-- A command whose arguments are accepted has something to do. -/
theorem perform_ne_ret {c : Call} (hc : checkArguments N c = none) (r : Int) :
    perform c ≠ .ret r := by
  obtain ⟨-, -, -, request, hr⟩ := range_of_checkArguments hc
  rw [perform, hr]
  cases request with
  | intercept => exact fun h => by cases h
  | release => exact fun h => by cases h
  | startMonitoring => exact fun h => by cases h
  | stopMonitoring => exact fun h => by cases h

/-- A step between codes that install nothing. -/
theorem installs_update {p : Pool Lock Kernel Int n} {i : Fin n} {code : KernelM Int} {k : Kernel}
    {s : Nat} (hold : p.code i ≠ installInterceptor s) (hnew : code ≠ installInterceptor s) :
    Installs calls ⟨Function.update p.code i code, k⟩ s ↔ Installs calls p s := by
  refine exists_congr fun j => and_congr_right fun _ => ?_
  by_cases hj : j = i
  · subst hj
    simp only [Function.update_self, hold, hnew]
  · simp only [Function.update_of_ne hj]

/-- A step of a command on another system call. -/
theorem installs_update_of_ne {p : Pool Lock Kernel Int n} {i : Fin n} {code : KernelM Int}
    {k : Kernel} {s : Nat} (hs : s ≠ (calls i).index) :
    Installs calls ⟨Function.update p.code i code, k⟩ s ↔ Installs calls p s := by
  refine exists_congr fun j => and_congr_right fun hj => ?_
  have hne : j ≠ i := fun h => hs (h ▸ hj.symm)
  simp only [Function.update_of_ne hne]

/-- The commands in `done`, with what they return, explain the interleaving so far: run alone
one after another they lead to `a`, and the others have not changed anything. -/
structure Explains (N : Numbers) (calls : Fin n → Call) (k₀ : Kernel)
    (p : Pool Lock Kernel Int n) (done : List (Fin n × Int)) (a : Kernel) : Prop where
  nodup : (done.map Prod.fst).Nodup
  serial : serialRun (fun i => mySyscall N (calls i)) (done.map Prod.fst) k₀ =
    (done.map Prod.snd, a)
  waiting : ∀ i, i ∉ done.map Prod.fst → checkArguments N (calls i) = none ∧
    (p.code i = runCommand (calls i) ∨ p.code i = perform (calls i))
  finished : ∀ x ∈ done, p.code x.1 = .ret x.2 ∨
    p.code x.1 = installInterceptor (calls x.1).index ∧ x.2 = 0
  behind : Behind (Installs calls p) p.state a

/-- The commands whose arguments are refused explain the start. -/
theorem exists_explains_start (N : Numbers) (calls : Fin n → Call) (k₀ : Kernel) :
    ∃ done, Explains N calls k₀ ⟨fun i => mySyscall N (calls i), k₀⟩ done k₀ := by
  let code := fun i => (checkArguments N (calls i)).getD 0
  let refused := (List.finRange n).filter fun i => (checkArguments N (calls i)).isSome
  have hrefused : ∀ i ∈ refused, mySyscall N (calls i) = .ret (code i) := fun i hi => by
    obtain ⟨r, hr⟩ := Option.isSome_iff_exists.mp (List.mem_filter.mp hi).2
    simp only [mySyscall, code, hr, Option.getD_some]
    rfl
  have hfst : (refused.map fun i => (i, code i)).map Prod.fst = refused := by
    simp [Function.comp_def]
  have hother : ∀ i, i ∉ refused → checkArguments N (calls i) = none := fun i hi => by
    by_contra hsome
    exact hi (List.mem_filter.mpr ⟨List.mem_finRange i, Option.isSome_iff_ne_none.mpr hsome⟩)
  have hstart : ∀ i, mySyscall N (calls i) = .ret (code i) ∨
      mySyscall N (calls i) = runCommand (calls i) := fun i => by
    by_cases hi : i ∈ refused
    · exact .inl (hrefused i hi)
    · exact .inr (by simp only [mySyscall, hother i hi])
  refine ⟨refused.map fun i => (i, code i), ?_, ?_, ?_, ?_, ?_⟩
  · rw [hfst]
    exact (List.nodup_finRange n).filter _
  · rw [hfst, List.map_map]
    exact serialRun_of_unchanged fun i hi => by rw [hrefused i hi]; rfl
  · intro i hi
    rw [hfst] at hi
    exact ⟨hother i hi, .inl (by simp only [mySyscall, hother i hi])⟩
  · intro x hx
    obtain ⟨i, hi, rfl⟩ := List.mem_map.mp hx
    exact .inl (hrefused i hi)
  · have hnone : ∀ s, ¬ Installs calls ⟨fun i => mySyscall N (calls i), k₀⟩ s := by
      rintro s ⟨j, -, hj⟩
      rcases hstart j with h | h
      · exact ret_ne _ s (h.symm.trans hj)
      · exact runCommand_ne _ s (h.symm.trans hj)
    exact ⟨rfl, fun s hs => absurd hs (hnone s), fun s _ => rfl⟩

namespace Explains

variable {p : Pool Lock Kernel Int n} {done : List (Fin n × Int)} {a a' : Kernel} {i : Fin n}
  {code : KernelM Int} {k : Kernel} {r : Int}

/-- A command that changes only its own code, before it is put into the order. -/
theorem keep (h : Explains N calls k₀ p done a) (hi : i ∉ done.map Prod.fst)
    (hcode : code = perform (calls i)) :
    Explains N calls k₀ ⟨Function.update p.code i code, p.state⟩ done a := by
  obtain ⟨hpass, hi'⟩ := h.waiting i hi
  refine ⟨h.nodup, h.serial, fun j hj => ?_, fun x hx => ?_, h.behind.congr fun s => ?_⟩
  · by_cases heq : j = i
    · subst heq
      exact ⟨hpass, .inr (by simp only [Function.update_self, hcode])⟩
    · simp only [Function.update_of_ne heq]
      exact h.waiting j hj
  · have hne : x.1 ≠ i := fun heq => hi (heq ▸ List.mem_map_of_mem hx)
    simp only [Function.update_of_ne hne]
    exact h.finished x hx
  · refine installs_update (fun hs => ?_) (hcode ▸ perform_ne _ s)
    rcases hi' with hi' | hi'
    · exact runCommand_ne _ s (hi'.symm.trans hs)
    · exact perform_ne _ s (hi'.symm.trans hs)

/-- A command that is put at the end of the order. -/
theorem append (h : Explains N calls k₀ p done a) (hi : i ∉ done.map Prod.fst)
    (hexec : (mySyscall N (calls i)).exec a = (r, a'))
    (hcode : code = .ret r ∨ code = installInterceptor (calls i).index ∧ r = 0)
    (hbehind : Behind (Installs calls ⟨Function.update p.code i code, k⟩) k a') :
    Explains N calls k₀ ⟨Function.update p.code i code, k⟩ (done ++ [(i, r)]) a' := by
  refine ⟨?_, ?_, fun j hj => ?_, fun x hx => ?_, hbehind⟩
  · rw [List.map_append]
    refine List.nodup_append.mpr ⟨h.nodup, List.nodup_singleton i, fun j hj j' hj' => ?_⟩
    obtain rfl := List.mem_singleton.mp hj'
    exact fun heq => hi (heq ▸ hj)
  · rw [List.map_append, List.map_append, serialRun_append, h.serial]
    simp only [List.map_cons, List.map_nil, serialRun, hexec]
  · rw [List.map_append, List.mem_append, not_or] at hj
    have hne : j ≠ i := fun heq => hj.2 (heq ▸ List.mem_cons_self)
    simp only [Function.update_of_ne hne]
    exact h.waiting j hj.1
  · rcases List.mem_append.mp hx with hx | hx
    · have hne : x.1 ≠ i := fun heq => hi (heq ▸ List.mem_map_of_mem hx)
      simp only [Function.update_of_ne hne]
      exact h.finished x hx
    · obtain rfl := List.mem_singleton.mp hx
      simp only [Function.update_self]
      exact hcode

/-- A command that puts the interceptor into the table. -/
theorem install {x : Fin n × Int} (h : Explains N calls k₀ p done a) (hx : x ∈ done)
    (hcode : p.code x.1 = installInterceptor (calls x.1).index) :
    Explains N calls k₀ ⟨Function.update p.code x.1 (.ret 0),
      p.state.setHandler (calls x.1).index .interceptor⟩ done a := by
  refine ⟨h.nodup, h.serial, fun j hj => ?_, fun y hy => ?_, ?_⟩
  · have hne : j ≠ x.1 := fun heq => hj (heq ▸ List.mem_map_of_mem hx)
    simp only [Function.update_of_ne hne]
    exact h.waiting j hj
  · by_cases heq : y.1 = x.1
    · have hy0 : y.2 = 0 := by
        rcases h.finished y hy with hret | ⟨-, h0⟩
        · rw [heq, hcode] at hret
          exact absurd hret.symm (ret_ne _ _)
        · exact h0
      simp only [heq, Function.update_self, hy0]
      exact .inl trivial
    · simp only [Function.update_of_ne heq]
      exact h.finished y hy
  · exact h.behind.install ⟨x.1, rfl, hcode⟩ fun s hs => installs_update_of_ne hs

/-- A command that fails a check of its context, or passes all of them. -/
theorem check (h : Explains N calls k₀ p done a) (hi : i ∉ done.map Prod.fst)
    (hcode : p.code i = runCommand (calls i)) :
    ∃ done' a', Explains N calls k₀ (p.step i) done' a' := by
  have hpass := (h.waiting i hi).1
  have hsame : checkContext a (calls i) = checkContext p.state (calls i) := by
    simp only [checkContext, h.behind.table_eq]
  simp only [Pool.step, hcode, runSection_runCommand]
  cases hcheck : checkContext p.state (calls i) with
  | none => exact ⟨done, a, h.keep hi rfl⟩
  | some code =>
    have hexec : (mySyscall N (calls i)).exec a = (code, a) := by
      simp only [mySyscall, hpass, exec_runCommand, hsame, hcheck]
    refine ⟨_, _, h.append hi hexec (.inl rfl) (h.behind.congr fun s => ?_)⟩
    exact installs_update (fun hs => runCommand_ne _ s (hcode.symm.trans hs)) (ret_ne _ s)

/-- A command that makes its change where the context is still the one that it checked. -/
theorem change (h : Explains N calls k₀ p done a) (hi : i ∉ done.map Prod.fst)
    (hcode : p.code i = perform (calls i)) (hC : Undisturbed calls p i) :
    ∃ done' a', Explains N calls k₀ (p.step i) done' a' := by
  obtain ⟨hcheck, hrelease⟩ := hC hcode
  have hsame : checkContext a (calls i) = checkContext p.state (calls i) := by
    simp only [checkContext, h.behind.table_eq]
  have hpass : Passes N a (calls i) := ⟨(h.waiting i hi).1, hsame.trans hcheck⟩
  have hpass' : Passes N p.state (calls i) := ⟨(h.waiting i hi).1, hcheck⟩
  have hexec := exec_of_passes hpass
  have hnot : ∀ s, p.code i ≠ installInterceptor s := fun s hs =>
    perform_ne _ s (hcode.symm.trans hs)
  obtain ⟨-, -, -, r, hr⟩ := hpass.range
  have hentry := hpass'.entry
  rw [hr] at hentry
  by_cases hintercept : r = .intercept
  · subst hintercept
    have hperform : perform (calls i) = interceptSyscall (calls i).index := by rw [perform, hr]
    rw [hperform] at hexec
    simp only [Pool.step, hcode, hperform, runSection_interceptSyscall]
    have hresult : ((interceptSyscall (calls i).index).exec a).1 = 0 := by
      rw [exec_interceptSyscall]
    exact ⟨_, _, h.append hi (hexec.trans (Prod.ext hresult rfl)) (.inr ⟨rfl, rfl⟩)
      (h.behind.intercept hentry ⟨i, rfl, by simp only [Function.update_self]⟩
        fun s hs => installs_update_of_ne hs)⟩
  · have hreturns := returnsIn_perform (c := calls i)
      (fun h => hintercept (Option.some.inj (hr.symm.trans h)))
    simp only [Pool.step, hcode, hreturns.runSection]
    have hinstalls : ∀ s k, Installs calls
        ⟨Function.update p.code i (.ret ((perform (calls i)).exec p.state).1), k⟩ s ↔
          Installs calls p s := fun s k => installs_update (hnot s) (ret_ne _ s)
    have hboth : ((perform (calls i)).exec a).1 = ((perform (calls i)).exec p.state).1 ∧
        Behind (Installs calls p) ((perform (calls i)).exec p.state).2
          ((perform (calls i)).exec a).2 := by
      rw [exec_perform, exec_perform, hr]
      cases r with
      | intercept => exact absurd rfl hintercept
      | release => exact ⟨rfl, h.behind.release (hrelease hr)⟩
      | startMonitoring => exact h.behind.runEntry fun t => MyTable.hook_started t _ _
      | stopMonitoring => exact h.behind.runEntry fun t => MyTable.hook_stopped t _
    have hexec' : (mySyscall N (calls i)).exec a =
        (((perform (calls i)).exec p.state).1, ((perform (calls i)).exec a).2) :=
      hexec.trans (Prod.ext hboth.1 rfl)
    exact ⟨_, _, h.append hi hexec' (.inl rfl)
      (hboth.2.congr fun s => hinstalls s _)⟩

/-- One step of an interleaving. -/
theorem step (h : Explains N calls k₀ p done a) (hC : Undisturbed calls p i) :
    ∃ done' a', Explains N calls k₀ (p.step i) done' a' := by
  by_cases hi : i ∈ done.map Prod.fst
  · obtain ⟨x, hx, rfl⟩ := List.mem_map.mp hi
    refine ⟨done, a, ?_⟩
    rcases h.finished x hx with hcode | ⟨hcode, -⟩
    · have hsame : p.step x.1 = p := by
        simp only [Pool.step, hcode, runSection]
        rw [← hcode, Function.update_eq_self]
      rw [hsame]
      exact h
    · simp only [Pool.step, hcode, runSection_installInterceptor]
      exact h.install hx hcode
  · rcases (h.waiting i hi).2 with hcode | hcode
    · exact h.check hi hcode
    · exact h.change hi hcode hC

/-- When all commands have returned, the order explains everything. -/
theorem serialisable (h : Explains N calls k₀ p done a) {codes : Fin n → Int}
    (hcodes : ∀ i, p.code i = .ret (codes i)) :
    Serialisable (fun i => mySyscall N (calls i)) k₀ codes p.state := by
  have hall : ∀ i, i ∈ done.map Prod.fst := fun i => by
    by_contra hi
    rcases (h.waiting i hi).2 with hcode | hcode
    · exact runCommand_ne_ret _ _ (hcode.symm.trans (hcodes i))
    · exact perform_ne_ret (h.waiting i hi).1 _ (hcode.symm.trans (hcodes i))
  have hnone : ∀ s, ¬ Installs calls p s := by
    rintro s ⟨j, -, hj⟩
    exact ret_ne _ s ((hcodes j).symm.trans hj)
  have hresult : done.map Prod.snd = (done.map Prod.fst).map codes := by
    rw [List.map_map]
    refine List.map_congr_left fun x hx => ?_
    rcases h.finished x hx with hcode | ⟨hcode, -⟩
    · exact (ret.inj ((hcodes x.1).symm.trans hcode)).symm
    · exact absurd ((hcodes x.1).symm.trans hcode) (ret_ne _ _)
  refine ⟨done.map Prod.fst, ?_, ?_⟩
  · exact (List.perm_ext_iff_of_nodup h.nodup (List.nodup_finRange n)).mpr fun i =>
      ⟨fun _ => List.mem_finRange i, fun _ => hall i⟩
  · rw [h.serial, hresult, h.behind.eq hnone]

theorem sane (h : Explains N calls k₀ p done a) (hk : Sane k₀) : Sane p.state := by
  have ha : Sane a := by
    have hserial := hk.serialRun (N := N) calls (done.map Prod.fst)
    rwa [h.serial] at hserial
  have htable := h.behind.table_eq
  refine ⟨htable ▸ ha.saved, fun s h0 => ?_, htable ▸ ha.nodup⟩
  rw [← h.behind.settled s fun hmissing => (h.behind.pending s hmissing).2 h0]
  exact ha.free s (htable ▸ h0)

end Explains

/-- When no step disturbs another command, the return codes and the final kernel are those of
some order of the commands, and in every kernel reached from a sane one no saved function is the
interceptor and no pid is twice in a list. -/
theorem serialisable_of_undisturbed {p : Pool Lock Kernel Int n} {steps : List (Fin n)}
    (hrun : Pool.Runs (Undisturbed calls) ⟨fun i => mySyscall N (calls i), k₀⟩ steps p) :
    (∀ codes : Fin n → Int, (∀ i, p.code i = .ret (codes i)) →
      Serialisable (fun i => mySyscall N (calls i)) k₀ codes p.state) ∧
    (Sane k₀ → (∀ s, (p.state.table s).f ≠ .interceptor) ∧
      ∀ s, (p.state.table s).myList.Nodup) := by
  have hstep : ∀ (q : Pool Lock Kernel Int n) i, Undisturbed calls q i →
      (∃ done a, Explains N calls k₀ q done a) →
      ∃ done a, Explains N calls k₀ (q.step i) done a :=
    fun q i hC ⟨done, a, h⟩ => h.step hC
  obtain ⟨done₀, h₀⟩ := exists_explains_start N calls k₀
  obtain ⟨done, a, h⟩ := hrun.induction hstep ⟨done₀, k₀, h₀⟩
  exact ⟨fun codes hcodes => h.serialisable hcodes,
    fun hk => ⟨(h.sane hk).saved, (h.sane hk).nodup⟩⟩

/-- The kernel is sane when the module has been loaded. -/
theorem sane_init (N : Numbers) (original : Nat → Nat) : Sane (after N original []) := by
  refine ⟨fun s => ?_, fun s _ => ?_, fun s => ?_⟩
  · change (if s < N.nrSyscalls then _ else _ : MyTable).f ≠ _
    split <;> exact Handler.noConfusion
  · rw [sysCallTable_init]
    by_cases he : s = N.nrExitGroup
    · rw [he, Function.update_self]
      exact Handler.noConfusion
    · rw [Function.update_of_ne he]
      by_cases h0 : s = myCustomSyscall
      · rw [h0, Function.update_self]
        exact Handler.noConfusion
      · rw [Function.update_of_ne h0]
        exact Handler.noConfusion
  · change (if s < N.nrSyscalls then _ else _ : MyTable).myList.Nodup
    split <;> exact List.nodup_nil

/-- Root starts to monitor two processes at once. -/
def startBoth (i : Fin 2) : Call := ⟨3, 5, i.val + 1, true, true, true, true⟩

/-- Two commands that add different pids are serialisable. -/
theorem serialisable_startBoth :
    Serialisable (fun i => mySyscall sampleNumbers (startBoth i))
      (after sampleNumbers id [rootCommand 1 0]) (fun _ => 0)
      ([0, 1, 0, 1].foldl Pool.step ⟨fun i => mySyscall sampleNumbers (startBoth i),
        after sampleNumbers id [rootCommand 1 0]⟩).state := by
  have hother : ∀ {i : Fin 2} {q : Pool Lock Kernel Int 2},
      checkContext q.state (startBoth i) = none → Undisturbed startBoth q i :=
    fun hq _ => ⟨hq, fun h => by cases h⟩
  have hrun := (((Pool.Runs.nil (p := ⟨fun i => mySyscall sampleNumbers (startBoth i),
    after sampleNumbers id [rootCommand 1 0]⟩)).snoc (i := 0) (hother (by decide))).snoc (i := 1)
      (hother (by decide))).snoc (i := 0) (hother (by decide))
  refine (serialisable_of_undisturbed (hrun.snoc (i := 1) (hother (by decide)))).1 _ ?_
  intro i
  match i with
  | 0 => rfl
  | 1 => rfl

/-- Root intercepts system call 5 twice. -/
def interceptBoth (_ : Fin 2) : Call := ⟨1, 5, 0, true, true, true, true⟩

/-- Two intercepts that both check before either makes its change return success, and the
interceptor is saved as the function of the system call. -/
theorem not_serialisable :
    let start : Pool Lock Kernel Int 2 :=
      ⟨fun i => mySyscall sampleNumbers (interceptBoth i), after sampleNumbers id []⟩
    let p := [0, 1, 0, 0, 1, 1].foldl Pool.step start
    Pool.Runs (fun _ _ => True) start [0, 1, 0, 0, 1, 1] p ∧
      (∀ i, p.code i = .ret 0) ∧ (p.state.table 5).f = .interceptor ∧
      ¬ Serialisable (fun i => mySyscall sampleNumbers (interceptBoth i))
        (after sampleNumbers id []) (fun _ => 0) p.state := by
  refine ⟨Pool.Runs.foldl _ _, fun i => ?_, by decide, ?_⟩
  · match i with
    | 0 => rfl
    | 1 => rfl
  · have hbusy : ∀ i j : Fin 2,
        (serialRun (fun i => mySyscall sampleNumbers (interceptBoth i)) [i, j]
          (after sampleNumbers id [])).1 ≠ [0, 0] := by decide
    rintro ⟨order, hperm, hserial⟩
    obtain ⟨i, j, rfl⟩ : ∃ i j, order = [i, j] := List.length_eq_two.mp hperm.length_eq
    exact hbusy i j (congrArg Prod.fst hserial)

end OsAssignments.Interceptor
