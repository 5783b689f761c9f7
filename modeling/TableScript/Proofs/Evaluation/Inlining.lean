import TableScript.Proofs.Evaluation.Following
import TableScript.Proofs.Evaluation.Returning
import TableScript.Proofs.Program.Flatten

/-!
# Bare blocks and imports are inlined

A bare block and an import open no frame, so they do what their statements would do in their place.  That
is all they do: from each machine, a program and the flat program do the same, up to the files that errors
are marked with (`flatten_same_outcome`).

The functions that the flat program defines are flat, so the two runs are compared along the relation that
one function is the other one flattened.  The flat program also needs less fuel, as a block and an import
take a unit for themselves.  Given an end of the program, the same fuel takes the flat program there.  Given
an end of the flat program, the program gets there with more fuel, and how much more can be read off
the sizes of the code.  `Fuels` is about both ways, and so is the proof, which is by induction on the fuel of
the program (`follows_flatten`): the statements of a block are run with less fuel in the block, and with the
same in the flat program.
-/

namespace TableScript

/-- The value, with its body flattened if it is a function. -/
def Value.flatten : Value → Value
  | .function f => .function f.flatten
  | v => v

/-- The machine with flat functions. -/
def Machine.flatten (m : Machine) : Machine :=
  { m with
    scopes := m.scopes.mapValues Value.flatten
    tables := m.tables.mapValues Value.flatten }

/-! ### Fuel -/

/-- Whether the end of a program is given or that of the flat program. -/
inductive Way where
  | toFlat | fromFlat

/-- How much fuel a program and the flat program have for code of some size, below a bound for all code.  On
the way from the flat program, each unit of its fuel stands for so many that every block and every import
around a statement can be entered. -/
structure Fuels (way : Way) (bound fuel fuel' size : Nat) : Prop where
  le : size ≤ bound
  enough : match way with
    | .toFlat => fuel ≤ fuel'
    | .fromFlat => fuel' * (bound + 1) + size ≤ fuel

namespace Fuels

variable {way : Way} {bound fuel fuel' size size' : Nat}

/-- Smaller code with the same fuel. -/
theorem mono (h : Fuels way bound fuel fuel' size) (hle : size' ≤ size) :
    Fuels way bound fuel fuel' size' := by
  obtain ⟨hbound, henough⟩ := h
  refine ⟨Nat.le_trans hle hbound, ?_⟩
  cases way with
  | toFlat => exact henough
  | fromFlat => exact Nat.le_trans (Nat.add_le_add_left hle _) henough

/-- A block takes fuel in the program only. -/
theorem inline (h : Fuels way bound (fuel + 1) fuel' size) (hlt : size' < size) :
    Fuels way bound fuel fuel' size' := by
  obtain ⟨hbound, henough⟩ := h
  refine ⟨by omega, ?_⟩
  cases way with
  | toFlat => exact Nat.le_of_succ_le henough
  | fromFlat =>
    simp only at henough ⊢
    omega

/-- A step of both leads to code of any size. -/
theorem step (h : Fuels way bound (fuel + 1) (fuel' + 1) size) (hle : size' ≤ bound) :
    Fuels way bound fuel fuel' size' := by
  refine ⟨hle, ?_⟩
  have henough := h.enough
  cases way with
  | toFlat => exact Nat.le_of_succ_le_succ henough
  | fromFlat =>
    simp only [Nat.succ_mul] at henough ⊢
    omega

/-- A program that has no more fuel than the flat one is the first to lack it. -/
theorem eq_toFlat (h : Fuels way bound fuel fuel' size) (hpos : 0 < size) (hle : fuel ≤ fuel') :
    way = .toFlat := by
  cases way with
  | toFlat => rfl
  | fromFlat =>
    -- each unit of the flat program stands for at least one, and the code for one more
    have henough : fuel' * (bound + 1) + size ≤ fuel := h.enough
    rw [Nat.mul_succ] at henough
    omega

theorem eq_fromFlat (h : Fuels way bound fuel fuel' size) (hlt : fuel' < fuel) : way = .fromFlat := by
  cases way with
  | toFlat => exact absurd h.enough (Nat.not_le.2 hlt)
  | fromFlat => rfl

end Fuels

/-! ### Runs -/

/-- The second function is the first one flattened, and the first is no larger than the bound. -/
def Terms.flattening (bound : Nat) : Terms where
  function f f' := f' = f.flatten ∧ sizeOf f ≤ bound
  params h := by rw [h.1, Routine.params_flatten]

/-- The flat program may run in another file, and its errors have the same cause.  The run whose end is
given may be cut off for lack of fuel. -/
def Likeness.flattening (way : Way) (bound : Nat) : Likeness (.flattening bound) where
  file _ _ := True
  cut s := way = .toFlat ∧ s = .outOfFuel
  cut' s := way = .fromFlat ∧ s = .outOfFuel
  same s s' := ∃ e e', s = .failed e ∧ s' = .failed e' ∧ e'.cause = e.cause

theorem Likeness.lawful_flattening (way : Way) (bound : Nat) : (flattening way bound).Lawful where
  fresh _ := trivial
  mark _ _ h := ⟨h.1, by rw [h.2]; rfl⟩
  mark' _ _ h := ⟨h.1, by rw [h.2]; rfl⟩
  failure hline e := by
    obtain rfl := hline
    exact ⟨_, _, rfl, rfl, rfl⟩
  calls h := .inl (congrArg Limits.callDepth h.symm)

namespace Run

variable {way : Way} {bound : Nat} {part : Part} {α : Type} {A : α → α → Prop} {x y : Run α}

theorem follows_outOfFuel_left (hway : way = .toFlat) :
    Follows (.flattening way bound) part α A outOfFuel y := fun _ _ _ => .inl (.first _ ⟨hway, rfl⟩)

theorem follows_outOfFuel_right (hway : way = .fromFlat) :
    Follows (.flattening way bound) part α A x outOfFuel := fun _ _ _ => .inl (.second _ ⟨hway, rfl⟩)

/-- The flat program runs the statements of an import in the file around them, without a mark. -/
theorem Follows.inFile_flattening (hx : Follows (.flattening way bound) part α A x y)
    (file : Option String) : Follows (.flattening way bound) part α A (inFile file x) y := by
  refine hx.inFile_left (Likeness.lawful_flattening way bound) (fun _ _ => trivial) ?_ file
  rintro name _ s' ⟨e, e', rfl, hs', hcause⟩
  exact ⟨_, e', rfl, hs', hcause⟩

theorem Follows.inFiles_flattening (hx : Follows (.flattening way bound) part α A x y)
    (file : Option String) :
    Follows (.flattening way bound) part α A (inFile file x) (inFile file y) := by
  refine Follows.inFile_right (Likeness.lawful_flattening way bound) (fun _ _ => trivial) ?_ file
    (hx.inFile_flattening file)
  rintro name s _ ⟨e, e', hs, rfl, hcause⟩
  exact ⟨e, _, hs, rfl, hcause⟩

theorem execAll_singleton (exec : Stmt → Run Flow) (s : Stmt) : execAll exec [s] = exec s := by
  funext m
  rw [execAll, Action.bind_apply]
  rcases exec s m with ⟨e | _ | _, m₁⟩
  · rfl
  · rfl
  · rfl

section Step

variable {fuel fuel' : Nat}
variable (heval : ∀ fuel' e, Fuels way bound fuel fuel' (sizeOf e) →
  Follows (.flattening way bound) .expression Value (Terms.flattening bound).Related (eval fuel e)
    (eval fuel' e.flatten))
variable (hexec : ∀ fuel' s, Fuels way bound fuel fuel' (sizeOf s) →
  Follows (.flattening way bound) .statement Flow Eq (exec fuel s) (execAll (exec fuel') s.flatten))

include hexec in
theorem follows_execAll_flatten {ss : List Stmt} (h : Fuels way bound fuel fuel' (sizeOf ss)) :
    Follows (.flattening way bound) .statement Flow Eq (execAll (exec fuel) ss)
      (execAll (exec fuel') (flattenAll ss)) := by
  have hR := stepwise_follows (Likeness.lawful_flattening way bound)
  induction ss with
  | nil => exact hR.pure rfl
  | cons s ss ih =>
    have hsize : sizeOf (s :: ss) = 1 + sizeOf s + sizeOf ss := List.cons.sizeOf_spec s ss
    -- what stands in the place of `s` is carried out first, and the rest only if it does not return
    rw [flattenAll, funext (execAll_append _ _ _)]
    refine hR.bind (hexec fuel' s (h.mono (by omega))) fun flow flow' hflow => ?_
    obtain rfl : flow = flow' := hflow
    cases flow with
    | normal => exact ih (h.mono (by omega))
    | returned => exact hR.pure rfl

include heval hexec

/-- One more unit of fuel for expressions. -/
theorem follows_eval_succ_flatten (fuel' : Nat) (e : Expr)
    (h : Fuels way bound (fuel + 1) fuel' (sizeOf e)) :
    Follows (.flattening way bound) .expression Value (Terms.flattening bound).Related
      (eval (fuel + 1) e) (eval fuel' e.flatten) := by
  cases fuel' with
  | zero => exact follows_outOfFuel_right (h.eq_fromFlat (Nat.succ_pos fuel))
  | succ fuel' =>
    have hl := Likeness.lawful_flattening way bound
    have hR := stepwise_follows hl
    have hnode : e.SameNode (Terms.flattening bound).lines (Terms.flattening bound).function
        (fun c c' => c ∈ e.parts ∧ c' = c.flatten) e.flatten := by
      refine e.sameNode_flatten (fun _ _ => rfl) ?_ fun c hc => ⟨hc, rfl⟩
      rintro line f rfl
      have hle := h.le
      simp only [Expr.function.sizeOf_spec] at hle
      exact ⟨rfl, by omega⟩
    have hparts : ∀ c c', c ∈ e.parts ∧ c' = c.flatten → Follows (.flattening way bound) .expression
        Value (Terms.flattening bound).Related (eval fuel c) (eval fuel' c') := by
      rintro c _ ⟨hc, rfl⟩
      exact heval fuel' c (h.step (Nat.le_trans (Nat.le_of_lt (Expr.sizeOf_lt_of_mem_parts hc)) h.le))
    rw [eval, eval]
    refine hR.evalRule hparts hnode fun hline hcallee hargs => ?_
    refine Follows.inCall_of_depth hl id hline (hR.callBody hparts ?_ hargs hline hcallee)
    -- a function keeps its file when it is flattened, so both bodies run in the same one
    rintro f _ ⟨rfl, hle⟩
    rw [f.file_flatten, f.stmts_flatten]
    have hbody := h.step (Nat.le_trans (Nat.le_of_lt f.sizeOf_stmts_lt) hle)
    exact (follows_execAll_flatten hexec hbody).inFiles_flattening f.file

/-- One more unit of fuel for statements.  What gives way to its statements takes it for itself. -/
theorem follows_exec_succ_flatten (fuel' : Nat) (s : Stmt)
    (h : Fuels way bound (fuel + 1) fuel' (sizeOf s)) :
    Follows (.flattening way bound) .statement Flow Eq (exec (fuel + 1) s)
      (execAll (exec fuel') s.flatten) := by
  have hR := stepwise_follows (Likeness.lawful_flattening way bound)
  rcases s.flatten_cases (L := (Terms.flattening bound).lines) (fun _ _ => rfl)
      (E := fun c c' => c ∈ s.exprs ∧ c' = c.flatten) (fun c hc => ⟨hc, rfl⟩)
      (B := fun ss ss' => ss ∈ s.blocks ∧ ss' = flattenAll ss) (fun ss hss => ⟨hss, rfl⟩)
    with ⟨body, rfl, hflat⟩ | ⟨line, name, p, rfl, hflat⟩ | ⟨s', hflat, hnode⟩
  · rw [hflat]
    refine follows_execAll_flatten hexec (h.inline ?_)
    have hlt := body.sizeOf_stmts_lt
    simp only [Stmt.block.sizeOf_spec]
    omega
  · rw [hflat]
    refine (follows_execAll_flatten hexec (h.inline ?_)).inFile_flattening (some name)
    simp only [Stmt.get.sizeOf_spec]
    omega
  · rw [hflat, execAll_singleton]
    cases fuel' with
    | zero => exact follows_outOfFuel_right (h.eq_fromFlat (Nat.succ_pos fuel))
    | succ fuel' =>
      have hsmaller {size : Nat} (hlt : size < sizeOf s) := h.step (Nat.le_trans (Nat.le_of_lt hlt) h.le)
      rw [exec, exec]
      refine hR.execRule ?_ hnode ?_ (fun _ _ _ _ => False.elim) fun _ hcondition hbody => ?_
      · rintro c _ ⟨hc, rfl⟩
        exact heval fuel' c (hsmaller (Stmt.sizeOf_lt_of_mem_exprs hc))
      · rintro ss _ ⟨hss, rfl⟩
        exact follows_execAll_flatten hexec (hsmaller (Stmt.sizeOf_lt_of_mem_blocks hss))
      · -- both count the turns of a loop down from their fuel, so one of them may run out of it first
        refine hR.repeatWhile (fun more hmore => ?_) (fun more hmore => ?_) hcondition hbody
        · exact follows_outOfFuel_left (h.eq_toFlat s.sizeOf_pos (by omega))
        · by_cases hlt : fuel' < fuel
          · exact follows_outOfFuel_right (h.eq_fromFlat (Nat.succ_lt_succ hlt))
          · obtain rfl : more = 0 := by omega
            exact follows_outOfFuel_left (h.eq_toFlat s.sizeOf_pos (by omega))

end Step

/-- Code comes to the same end when it is flat, unless the run whose end is given lacks fuel. -/
theorem follows_flatten (fuel : Nat) :
    (∀ fuel' e, Fuels way bound fuel fuel' (sizeOf e) →
      Follows (.flattening way bound) .expression Value (Terms.flattening bound).Related (eval fuel e)
        (eval fuel' e.flatten)) ∧
    (∀ fuel' s, Fuels way bound fuel fuel' (sizeOf s) →
      Follows (.flattening way bound) .statement Flow Eq (exec fuel s)
        (execAll (exec fuel') s.flatten)) := by
  induction fuel with
  | zero =>
    refine ⟨fun fuel' e h => ?_, fun fuel' s h => ?_⟩
    · exact follows_outOfFuel_left (h.eq_toFlat e.sizeOf_pos fuel'.zero_le)
    · exact follows_outOfFuel_left (h.eq_toFlat s.sizeOf_pos fuel'.zero_le)
  | succ fuel ih =>
    obtain ⟨heval, hexec⟩ := ih
    exact ⟨follows_eval_succ_flatten heval hexec, follows_exec_succ_flatten heval hexec⟩

/-! ### Programs -/

/-- A program and the flat program concur, unless the one whose end is given lacks fuel. -/
theorem execute_flatten {fuel fuel' : Nat} {p : Program} {m m' : Machine}
    (h : Fuels way bound fuel fuel' (sizeOf p)) (hm : m.Like (.flattening way bound) m') :
    EndsLike (.flattening way bound) (fun _ _ => True) (execute fuel p m) (execute fuel' p.flatten m') := by
  have hR := stepwise_follows (Likeness.lawful_flattening way bound)
  have hrun : Follows (.flattening way bound) .statement Unit (fun _ _ => True) (execute fuel p)
      (execute fuel' p.flatten) :=
    hR.bind (follows_execAll_flatten (follows_flatten fuel).2 h) fun _ _ _ => hR.pure trivial
  exact hrun m m' hm

theorem Concur.causes {r r' : Except Stop Unit}
    (h : Concur (Likeness.flattening way bound).same (fun _ _ => True) r r') :
    ∃ s s' : Except Error Unit, r = s.mapError .failed ∧ r' = s'.mapError .failed ∧
      s'.mapError Error.cause = s.mapError Error.cause := by
  cases h with
  | value _ => exact ⟨.ok (), .ok (), rfl, rfl, rfl⟩
  | stop hs =>
    obtain ⟨e, e', rfl, rfl, hcause⟩ := hs
    exact ⟨.error e, .error e', rfl, rfl, congrArg Except.error hcause⟩

/-- A value that is small enough is related to the flat one, and to no other. -/
theorem related_flatten {v : Value} (h : sizeOf v ≤ bound) :
    (Terms.flattening bound).Related v v.flatten := by
  cases v with
  | number x => exact .number x
  | text s => exact .text s
  | bool b => exact .bool b
  | null => exact .null
  | function f =>
    rw [Value.function.sizeOf_spec] at h
    exact .function ⟨rfl, by omega⟩
  | table t => exact .table trivial

theorem eq_flatten_of_related {v v' : Value} (h : (Terms.flattening bound).Related v v') :
    v' = v.flatten := by
  cases h with
  | function hf => exact congrArg Value.function hf.1
  | _ => rfl

theorem like_flatten {m : Machine} (h : sizeOf m ≤ bound) : m.Like (.flattening way bound) m.flatten := by
  have hvalue : ∀ v, m.Holds v → (Terms.flattening bound).Related v v.flatten := fun v hv =>
    related_flatten (Nat.le_trans (Nat.le_of_lt hv.sizeOf_lt) h)
  obtain ⟨hscopes, htables⟩ := m.alike_mapValues hvalue fun t => .table trivial
  exact ⟨hscopes, htables, rfl, rfl, trivial⟩

theorem eq_flatten_of_like {m m' : Machine} (h : m.Like (.flattening way bound) m') :
    m'.scopes = m.flatten.scopes ∧ m'.tables = m.flatten.tables := by
  have hvalue : ∀ v v', (Terms.flattening bound).Related v v' → v' = v.flatten := fun _ _ =>
    eq_flatten_of_related
  exact ⟨h.scopes.eq_mapValues hvalue, h.tables.eq_mapValues hvalue fun t => .table trivial⟩

/-- The flat program on the flat machine comes to the same end, and to none if there is none. -/
theorem flatten_outcome (p : Program) (m : Machine) :
    (Diverges p m ∧ Diverges p.flatten m.flatten) ∨
      ∃ r m₁ r' m₁', Finishes p m r m₁ ∧ Finishes p.flatten m.flatten r' m₁' ∧
        r'.mapError Error.cause = r.mapError Error.cause ∧
        m₁'.scopes = m₁.flatten.scopes ∧ m₁'.tables = m₁.flatten.tables := by
  -- nothing that the run meets is larger than the program and the machine together
  let bound := sizeOf p + sizeOf m
  have hlike (way : Way) : m.Like (.flattening way bound) m.flatten :=
    like_flatten (Nat.le_add_left _ _)
  by_cases hdiverges : Diverges p m
  · refine .inl ⟨hdiverges, fun fuel' => ?_⟩
    by_contra hends
    let fuel := fuel' * (bound + 1) + sizeOf p
    have hfuels : Fuels .fromFlat bound fuel fuel' (sizeOf p) := ⟨Nat.le_add_right _ _, Nat.le_refl _⟩
    obtain ⟨-, hend⟩ := (execute_flatten hfuels (hlike .fromFlat)).concur (fun _ _ hcut => nomatch hcut.1)
      fun s hs hcut => hends (by rw [hs, hcut.2])
    obtain ⟨s, s', hs, -⟩ := hend.causes
    exact not_diverges_iff.2 ⟨s, _, fuel, Prod.ext hs rfl⟩ hdiverges
  · obtain ⟨fuel, hends⟩ := not_forall.1 hdiverges
    have hfuels : Fuels .toFlat bound fuel fuel (sizeOf p) := ⟨Nat.le_add_right _ _, Nat.le_refl _⟩
    obtain ⟨hm₁, hend⟩ := (execute_flatten hfuels (hlike .toFlat)).concur
      (fun s hs hcut => hends (by rw [hs, hcut.2])) fun _ _ hcut => nomatch hcut.1
    obtain ⟨s, s', hs, hs', hcause⟩ := hend.causes
    exact .inr ⟨s, _, s', _, ⟨fuel, Prod.ext hs rfl⟩, ⟨fuel, Prod.ext hs' rfl⟩, hcause,
      eq_flatten_of_like hm₁⟩

/-- **Bare blocks and imports are inlined.**  From each machine, a program and the same program with the
statements of its bare blocks and imports in their place both diverge, or both finish: both well, or both
with the same root error, and with the same frames and tables up to flattening of functions. -/
theorem flatten_same_outcome (p : Program) (m : Machine) :
    (Diverges p m ∧ Diverges p.flatten m) ∨
      ∃ r m₁ r' m₁', Finishes p m r m₁ ∧ Finishes p.flatten m r' m₁' ∧
        r'.mapError Error.cause = r.mapError Error.cause ∧
        m₁'.flatten.scopes = m₁.flatten.scopes ∧ m₁'.flatten.tables = m₁.flatten.tables := by
  -- Both are compared with the flat program on the flat machine.
  have hflat : p.flatten.flatten = p.flatten := flattenAll_flattenAll p
  have hp := flatten_outcome p m
  have hq := flatten_outcome p.flatten m
  rw [hflat] at hq
  rcases hp with ⟨hp, hp'⟩ | ⟨r, m₁, s, m₂, hp, hp', hcause, hscopes, htables⟩
  · rcases hq with ⟨hq, -⟩ | ⟨r', m₁', s', m₂', -, hq', -⟩
    · exact .inl ⟨hp, hq⟩
    · exact absurd hp' (not_diverges_iff.2 ⟨s', m₂', hq'⟩)
  · rcases hq with ⟨-, hq'⟩ | ⟨r', m₁', s', m₂', hq, hq', hcause', hscopes', htables'⟩
    · exact absurd hq' (not_diverges_iff.2 ⟨s, m₂, hp'⟩)
    · obtain ⟨rfl, rfl⟩ := hp'.unique hq'
      exact .inr ⟨r, m₁, r', m₁', hp, hq, hcause'.symm.trans hcause, hscopes'.symm.trans hscopes,
        htables'.symm.trans htables⟩

-- A failure in an import is marked with its file, and in the flat program it is not.
example : (execute 3 [.get 1 "lib" [.ret 2 (.bool 2 true)]] {}).1 =
    .error (.failed { cause := .runtime 2 .returnOutsideFunction, files := ["lib"] }) := by
  with_unfolding_all rfl

example : (execute 3 (Program.flatten [.get 1 "lib" [.ret 2 (.bool 2 true)]]) {}).1 =
    .error (.failed { cause := .runtime 2 .returnOutsideFunction }) := by
  with_unfolding_all rfl

end Run

end TableScript
