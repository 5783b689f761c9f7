import TableScript.Proofs.Evaluation.Following

/-!
# Everything but a loop ends

A program without loops ends, on a machine that leads to no function with a loop in it.  Functions may
call themselves and each other, they may be passed on and be kept in tables: calls are limited in depth,
and below that limit each step goes to a smaller piece of code.  So there is an amount of fuel that is
enough, which can be read off the code: its own size, and for each call that may still be opened a bound on
the size of all code there is (`Fits`).

That it is enough is shown by letting the run follow itself, in a way that a run that stops for lack of fuel
does not (`Likeness.ending`).  The values that count are loop-free functions within the bound, places in `G`,
and what holds no code at all.  The places in `G` are the tables that the machine leads to at the start, and
those that do not exist yet.  A table outside of `G` may hold a function with a loop, and it is never reached.
-/

namespace TableScript

/-- Code without loops, and functions of a size up to `bound`. -/
def Terms.loopFree (G : TableId → Prop) (bound : Nat) : Terms where
  lines form _ _ := form ≠ .loop
  function f f' := f = f' ∧ f.LoopFree ∧ sizeOf f ≤ bound
  params h := by rw [h.1]
  known := G

/-- A run that does not stop for lack of fuel, on a machine where at most `d` more calls can be opened. -/
def Likeness.ending (G : TableId → Prop) (bound d : Nat) : Likeness (.loopFree G bound) where
  limits n x y := y = x ∧ x.callDepth ≤ n + d
  same s _ := s ≠ .outOfFuel

theorem Likeness.lawful_ending (G : TableId → Prop) (bound d : Nat) : (ending G bound d).Lawful where
  fresh _ := trivial
  mark _ _ := id
  mark' _ _ := id
  failure _ _ := nofun
  calls h := .inl (by rw [h.1])

/-- Code of the given size needs no more than `fuel`, if `d` more calls can be opened. -/
structure Fits (bound d fuel size : Nat) : Prop where
  le : size ≤ bound
  enough : size + d * (bound + 1) ≤ fuel

namespace Fits

variable {bound d fuel size size' : Nat}

theorem part (h : Fits bound d (fuel + 1) size) (hlt : size' < size) : Fits bound d fuel size' := by
  obtain ⟨hle, henough⟩ := h
  exact ⟨by omega, by omega⟩

/-- What a call runs is code of any size. -/
theorem call (h : Fits bound (d + 1) (fuel + 1) size) (hle : size' ≤ bound) :
    Fits bound d fuel size' := by
  have henough := h.enough
  rw [Nat.succ_mul] at henough
  exact ⟨hle, by omega⟩

end Fits

namespace Run

variable {G : TableId → Prop} {bound d : Nat} {α : Type} {A : α → α → Prop}

/-- In a call there is one call less to open.  If there is none, it fails. -/
theorem follows_inCall_ending {line line' : Nat} {x y : Run α}
    (hx : ∀ d', d = d' + 1 → Follows (.ending G bound d') .statement α A x y) :
    Follows (.ending G bound d) .expression α A (inCall line x) (inCall line' y) := by
  have hl := Likeness.lawful_ending G bound d
  have hline : (Terms.loopFree G bound).lines .call line line' := nofun
  cases d with
  | zero =>
    refine Follows.inCall hl (fun _ _ _ => False) ?_ nofun hline fun m m' hm => hm.limits.elim
    rintro n x y ⟨-, hle⟩ hlt
    omega
  | succ d =>
    refine Follows.inCall hl (Likeness.ending G bound d).limits ?_ ?_ hline (hx d rfl)
    · rintro n x y ⟨heq, hle⟩ hlt
      exact ⟨heq, by omega⟩
    · rintro n x y ⟨heq, hle⟩
      exact ⟨heq, by omega⟩

/-- Marking an error does not make it a lack of fuel. -/
theorem follows_inFile_ending {x y : Run α} (hx : Follows (.ending G bound d) .statement α A x y)
    (file : Option String) :
    Follows (.ending G bound d) .statement α A (inFile file x) (inFile file y) := by
  refine hx.inFile_of_same (Likeness.lawful_ending G bound d) rfl (fun name s s' hs => ?_) file
  cases s with
  | failed e => exact nofun
  | outOfFuel => exact absurd rfl hs

/-! ### Expressions and statements -/

section Step

variable {fuel : Nat}
variable (heval : ∀ d place e, (∀ n ∈ Expr.nodes place e, n.form ≠ .loop) → Fits bound d fuel (sizeOf e) →
  Follows (.ending G bound d) .expression Value (Terms.loopFree G bound).Related (eval fuel e) (eval fuel e))
variable (hexec : ∀ d place s, (∀ n ∈ Stmt.nodes place s, n.form ≠ .loop) → Fits bound d fuel (sizeOf s) →
  Follows (.ending G bound d) .statement Flow Eq (exec fuel s) (exec fuel s))

include hexec in
theorem follows_execAll_ending (d : Nat) (place : Place) (ss : List Stmt)
    (hloop : ∀ n ∈ nodesAll place ss, n.form ≠ .loop) (hfits : Fits bound d fuel (sizeOf ss)) :
    Follows (.ending G bound d) .statement Flow Eq (execAll (exec fuel) ss) (execAll (exec fuel) ss) := by
  apply (stepwise_follows (Likeness.lawful_ending G bound d)).execAll
  refine List.forall₂_same.2 fun s hs => ?_
  have hlt := List.sizeOf_lt_of_mem hs
  obtain ⟨hle, henough⟩ := hfits
  exact hexec d place s (fun n hn => hloop n (mem_nodesAll.2 ⟨s, hs, hn⟩)) ⟨by omega, by omega⟩

include heval hexec

/-- One more unit of fuel for expressions. -/
theorem follows_eval_succ_ending (d : Nat) (place : Place) (e : Expr)
    (hloop : ∀ n ∈ e.nodes place, n.form ≠ .loop) (hfits : Fits bound d (fuel + 1) (sizeOf e)) :
    Follows (.ending G bound d) .expression Value (Terms.loopFree G bound).Related (eval (fuel + 1) e)
      (eval (fuel + 1) e) := by
  have hnode : e.SameNode (Terms.loopFree G bound).lines (Terms.loopFree G bound).function
      (fun c c' => c = c' ∧ c ∈ e.parts) e := by
    refine e.sameNode_self place (fun h => hloop _ h) ?_ fun c hc => ⟨rfl, hc⟩
    rintro line ⟨tag, start, noted, params, ⟨brace, stmts⟩⟩ rfl
    simp only [Expr.nodes, List.forall_mem_cons] at hloop
    have hle := hfits.le
    simp only [Expr.function.sizeOf_spec] at hle
    exact ⟨rfl, hloop.2, by omega⟩
  have hparts : ∀ d', (∀ size, size < sizeOf e → Fits bound d' fuel size) →
      ∀ c c', c = c' ∧ c ∈ e.parts → Follows (.ending G bound d') .expression Value
        (Terms.loopFree G bound).Related (eval fuel c) (eval fuel c') := by
    rintro d' hfits c _ ⟨rfl, hc⟩
    exact heval d' place c (fun n hn => hloop n (Expr.mem_nodes_of_mem_parts hc hn))
      (hfits _ (Expr.sizeOf_lt_of_mem_parts hc))
  have hR (d : Nat) := stepwise_follows (Likeness.lawful_ending G bound d)
  rw [eval]
  refine (hR d).evalRule (hparts d fun size hlt => hfits.part hlt) hnode fun hline hcallee hargs => ?_
  -- whatever the call runs, it runs with one call less to open
  refine follows_inCall_ending ?_
  rintro d rfl
  refine (hR d).callBody (hparts d fun size hlt => hfits.call ?_) ?_ hargs hline hcallee
  · exact Nat.le_trans (Nat.le_of_lt hlt) hfits.le
  · rintro f _ ⟨rfl, hfree, hle⟩
    refine follows_inFile_ending (follows_execAll_ending hexec d ⟨f.file, true⟩ _ hfree (hfits.call ?_)) _
    exact Nat.le_trans (Nat.le_of_lt f.sizeOf_stmts_lt) hle

/-- One more unit of fuel for statements. -/
theorem follows_exec_succ_ending (d : Nat) (place : Place) (s : Stmt)
    (hloop : ∀ n ∈ s.nodes place, n.form ≠ .loop) (hfits : Fits bound d (fuel + 1) (sizeOf s)) :
    Follows (.ending G bound d) .statement Flow Eq (exec (fuel + 1) s) (exec (fuel + 1) s) := by
  have hnode : s.SameNode (Terms.loopFree G bound).lines (fun c c' => c = c' ∧ c ∈ s.exprs)
      (fun ss ss' => ss = ss' ∧ ss ∈ s.blocks)
      (fun name p name' p' => name = name' ∧ p = p' ∧ ∃ line, s = .get line name p) s := by
    refine s.sameNode_self place (fun h => hloop _ h) (fun c hc => ⟨rfl, hc⟩) (fun ss hss => ⟨rfl, hss⟩) ?_
    exact fun line name p hs => ⟨rfl, rfl, line, hs⟩
  have hR := stepwise_follows (Likeness.lawful_ending G bound d)
  rw [exec]
  refine hR.execRule ?_ hnode ?_ ?_ fun hline _ _ => absurd rfl hline
  · rintro c _ ⟨rfl, hc⟩
    exact heval d place c (fun n hn => hloop n (Stmt.mem_nodes_of_mem_exprs hc hn))
      (hfits.part (Stmt.sizeOf_lt_of_mem_exprs hc))
  · rintro ss _ ⟨rfl, hss⟩
    exact follows_execAll_ending hexec d place ss (fun n hn => hloop n (Stmt.mem_nodes_of_mem_blocks hss hn))
      (hfits.part (Stmt.sizeOf_lt_of_mem_blocks hss))
  · rintro name p _ _ ⟨rfl, rfl, line, rfl⟩
    simp only [Stmt.nodes, List.forall_mem_cons] at hloop
    refine follows_inFile_ending (follows_execAll_ending hexec d _ p hloop.2 (hfits.part ?_)) _
    simp only [Stmt.get.sizeOf_spec]
    omega

end Step

/-- Code without loops that fits its fuel does not run out of it. -/
theorem follows_ending (fuel : Nat) :
    (∀ d place e, (∀ n ∈ Expr.nodes place e, n.form ≠ .loop) → Fits bound d fuel (sizeOf e) →
      Follows (.ending G bound d) .expression Value (Terms.loopFree G bound).Related (eval fuel e)
        (eval fuel e)) ∧
    (∀ d place s, (∀ n ∈ Stmt.nodes place s, n.form ≠ .loop) → Fits bound d fuel (sizeOf s) →
      Follows (.ending G bound d) .statement Flow Eq (exec fuel s) (exec fuel s)) := by
  induction fuel with
  | zero =>
    -- there is no code of size zero
    refine ⟨fun d place e _ hfits => ?_, fun d place s _ hfits => ?_⟩
    · have henough := hfits.enough
      have hpos := e.sizeOf_pos
      omega
    · have henough := hfits.enough
      have hpos := s.sizeOf_pos
      omega
  | succ fuel ih =>
    obtain ⟨heval, hexec⟩ := ih
    exact ⟨follows_eval_succ_ending heval hexec, follows_exec_succ_ending heval hexec⟩

/-! ### Programs -/

/-- Before a run, what the machine leads to and what is not there yet is all that counts. -/
theorem like_ending_of_reaches {m : Machine}
    (hm : ∀ f, m.Reaches (.function f) → f.LoopFree ∧ sizeOf f ≤ bound) :
    m.Like (.ending m.Known bound m.limits.callDepth) m := by
  obtain ⟨hscopes, htables⟩ := m.alike_self_of_reaches
    (F := (Terms.loopFree m.Known bound).function) fun f hf => ⟨rfl, hm f hf⟩
  exact ⟨hscopes, htables, rfl, ⟨rfl, by omega⟩, rfl⟩

/-- A program without loops that fits its fuel does not run out of it. -/
theorem execute_ne_outOfFuel {fuel : Nat} {p : Program} {m : Machine} (hm : m.Like (.ending G bound d) m)
    (hp : p.LoopFree) (hfits : Fits bound d fuel (sizeOf p)) :
    (execute fuel p m).1 ≠ .error .outOfFuel := by
  have hR := stepwise_follows (Likeness.lawful_ending G bound d)
  have hrun : Follows (.ending G bound d) .statement Unit (fun _ _ => True) (execute fuel p)
      (execute fuel p) :=
    hR.bind (follows_execAll_ending (follows_ending fuel).2 d ⟨none, false⟩ p hp hfits) fun _ _ _ =>
      hR.pure trivial
  obtain ⟨-, hend⟩ := (hrun m m hm).concur (fun _ _ => id) fun _ _ => id
  generalize (execute fuel p m).1 = r at hend ⊢
  cases hend with
  | value _ => exact nofun
  | stop hs =>
    rintro ⟨⟩
    exact hs rfl

/-- **Everything but a loop ends.**  Take a machine that leads to no function with a loop in it, and a
program without loops.  With enough fuel the program comes to one and the same end, with or without an
error, and more fuel changes nothing. -/
theorem execute_ends_of_loopFree (m : Machine) (p : Program)
    (hm : ∀ f, m.Reaches (.function f) → f.LoopFree) (hp : p.LoopFree) :
    ∃ enough r m', r ≠ .error .outOfFuel ∧
      ∀ fuel, enough ≤ fuel → execute fuel p m = (r, m') := by
  -- nothing that the run meets is larger than the program and the machine together
  have hlike : m.Like (.ending m.Known (sizeOf p + sizeOf m) m.limits.callDepth) m := by
    refine like_ending_of_reaches fun f hf => ⟨hm f hf, ?_⟩
    have hlt := hf.holds.sizeOf_lt
    simp only [Value.function.sizeOf_spec] at hlt
    omega
  let enough := sizeOf p + m.limits.callDepth * (sizeOf p + sizeOf m + 1)
  have hends : (execute enough p m).1 ≠ .error .outOfFuel :=
    execute_ne_outOfFuel hlike hp ⟨Nat.le_add_right _ _, Nat.le_refl _⟩
  refine ⟨enough, _, (execute enough p m).2, hends, fun fuel hfuel => ?_⟩
  obtain ⟨more, rfl⟩ := Nat.exists_eq_add_of_le' hfuel
  exact execute_add_fuel hends more

/-- A function that calls whatever the name `f` stands for. -/
def callsF : Routine := .mk 1 1 none [] (.mk 1 [.ret 1 (.call 1 (.var 1 "f") [])])

/-- A machine on which `f` stands for that function. -/
def selfCalling : Machine := { scopes := Scopes.fresh.define "f" (.function callsF) }

theorem execute_ends_of_selfCalling :
    (∀ f, selfCalling.Reaches (.function f) → f.LoopFree) ∧
    Program.LoopFree [.expr 1 (.call 1 (.var 1 "f") [])] ∧
    ∃ enough r m', r ≠ .error .outOfFuel ∧ ∀ fuel, enough ≤ fuel →
      execute fuel [.expr 1 (.call 1 (.var 1 "f") [])] selfCalling = (r, m') := by
  have honly : ∀ v, selfCalling.Reaches v → v = .function callsF := by
    intro v hv
    induction hv with
    | bound hframe hname =>
      obtain rfl := List.mem_singleton.1 (Array.mem_toList_iff.2 hframe)
      exact congrArg Prod.snd (List.mem_singleton.1 hname)
    | result hframe hkind =>
      obtain rfl := List.mem_singleton.1 (Array.mem_toList_iff.2 hframe)
      cases hkind
    | entry _ _ ih => cases ih
  have hm : ∀ f, selfCalling.Reaches (.function f) → f.LoopFree := by
    intro f hf
    obtain rfl := Value.function.inj (honly _ hf)
    show ∀ n ∈ callsF.nodes, n.form ≠ .loop
    decide
  have hp : Program.LoopFree [.expr 1 (.call 1 (.var 1 "f") [])] := by
    show ∀ n ∈ nodesAll ⟨none, false⟩ [.expr 1 (.call 1 (.var 1 "f") [])], n.form ≠ .loop
    decide
  exact ⟨hm, hp, execute_ends_of_loopFree selfCalling _ hm hp⟩

end Run

end TableScript
