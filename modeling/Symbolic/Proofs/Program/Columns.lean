import Symbolic.Program.Columns
import Symbolic.Proofs.Program.Ordered

/-!
Batches give the values at the points. A workspace of the right size gives the value at any place and
is of that size again (`Suits.runAt`), so all places of a batch, and all chunks of a worker, have
their values (`Suits.runAll`, `work_eq`). Chunks of any schedule, in the order of their starts, make up
the whole output (`writeBack_chunks`). Columns that do not fit fail either way, but the two ways look at
their number and at their lengths in another order (`evaluateBatch_of_wrongCount`,
`evaluateShared_of_uneven`).
-/

namespace Symbolic.Compiled

variable {α : Type} [Scalar α] {f : Compiled} {columns : List (Array α)} {w : Workspace α}

/-- The point at place `i` of the columns. -/
def row (columns : List (Array α)) (i : Nat) : List α :=
  columns.map fun xs => xs[i]?.getD Scalar.undefined

/-- The value at place `i` of the columns, in cells that have not been used. -/
def valueAt (f : Compiled) (columns : List (Array α)) (i : Nat) : α :=
  (f.program.run (row columns i).toArray f.program.freshCells).1

theorem evaluate_row (hc : columns.length = f.params.length) (i : Nat) :
    f.evaluate (row columns i) = .ok (f.valueAt columns i) :=
  if_pos (by rw [row, List.length_map, hc])

/-! Workspaces. -/

theorem load_eq_row {slots : List α} (h : slots.length = columns.length) (i : Nat) :
    load i columns slots = row columns i := by
  induction columns generalizing slots with
  | nil =>
    rw [List.length_eq_zero_iff.1 h]
    rfl
  | cons xs columns ih =>
    cases slots with
    | nil => cases h
    | cons x slots => exact congrArg (xs[i]?.getD Scalar.undefined :: ·) (ih (Nat.succ.inj h))

/-- The workspace has cells for the program and a slot for each column. -/
structure Suits (f : Compiled) (columns : List (Array α)) (w : Workspace α) : Prop where
  cells : f.program.Fits w.cells
  slots : w.point.length = columns.length

theorem suits_workspace (f : Compiled) (columns : List (Array α)) :
    f.Suits columns (f.workspace columns.length) where
  cells := f.program.fits_freshCells
  slots := List.length_replicate

/-- What earlier points have left in the workspace does not matter. -/
theorem Suits.runAt (hf : f.program.Reusable) (hw : f.Suits columns w) (i : Nat) :
    (f.runAt columns w i).1 = f.valueAt columns i ∧ f.Suits columns (f.runAt columns w i).2 := by
  have hpoint := load_eq_row hw.slots i
  refine ⟨?_, hw.cells.run _, ?_⟩
  · rw [Compiled.runAt, hpoint]
    exact hf _ hw.cells f.program.fits_freshCells
  · rw [Compiled.runAt, hpoint, row, List.length_map]

theorem runAll_cons (i : Nat) (is : List Nat) : f.runAll columns w (i :: is) =
    ((f.runAt columns w i).1 :: (f.runAll columns (f.runAt columns w i).2 is).1,
      (f.runAll columns (f.runAt columns w i).2 is).2) := rfl

theorem Suits.runAll (hf : f.program.Reusable) (hw : f.Suits columns w) (is : List Nat) :
    (f.runAll columns w is).1 = is.map (f.valueAt columns) ∧
      f.Suits columns (f.runAll columns w is).2 := by
  induction is generalizing w with
  | nil => exact ⟨rfl, hw⟩
  | cons i is ih =>
    obtain ⟨hx, hw⟩ := hw.runAt hf i
    obtain ⟨hxs, hw⟩ := ih hw
    rw [runAll_cons, hx, hxs]
    exact ⟨rfl, hw⟩

/-! One batch. -/

theorem evaluateBatch_eq (hf : f.program.Reusable) (hc : columns.length = f.params.length)
    {output : List α} (hn : ∀ c ∈ columns, c.size = output.length) :
    f.evaluateBatch columns output =
      (.ok (), (List.range output.length).map (f.valueAt columns)) := by
  have heven : ¬ columns.any (·.size ≠ output.length) = true := by simpa using hn
  rw [evaluateBatch, if_neg (not_not.2 hc), if_neg heven]
  exact congrArg (Prod.mk _) ((suits_workspace f columns).runAll hf _).1

theorem evaluateBatch_error {output : List α} {err : Error}
    (h : (f.evaluateBatch columns output).1 = .error err) :
    (f.evaluateBatch columns output).2 = output := by
  rw [evaluateBatch] at h ⊢
  split
  · rfl
  · next hcount =>
    rw [if_neg hcount] at h
    split
    · rfl
    · next hsize =>
      rw [if_neg hsize] at h
      cases h

/-! Chunks. -/

def chunkValues (f : Compiled) (columns : List (Array α)) (n start : Nat) : Nat × List α :=
  (start, (chunk n start).map (f.valueAt columns))

theorem work_cons (n start : Nat) (starts : List Nat) : f.work columns n w (start :: starts) =
    (start, (f.runAll columns w (chunk n start)).1) ::
      f.work columns n (f.runAll columns w (chunk n start)).2 starts := rfl

/-- A worker makes of its chunks their values. -/
theorem work_eq (hf : f.program.Reusable) (hw : f.Suits columns w) (n : Nat) (starts : List Nat) :
    f.work columns n w starts = starts.map (f.chunkValues columns n) := by
  induction starts generalizing w with
  | nil => rfl
  | cons start starts ih =>
    obtain ⟨hxs, hw⟩ := hw.runAll hf (chunk n start)
    rw [work_cons, ih hw, hxs]
    rfl

theorem flatMap_work_eq (hf : f.program.Reusable) (n : Nat) (schedule : List (List Nat)) :
    schedule.flatMap (f.work columns n (f.workspace columns.length)) =
      schedule.flatten.map (f.chunkValues columns n) := by
  rw [List.flatMap_def, List.map_flatten]
  exact congrArg List.flatten
    (List.map_congr_left fun starts _ => work_eq hf (suits_workspace f columns) n starts)

/-- In the order of their starts, the chunks do not depend on the schedule. -/
theorem collect_eq {starts done : List Nat} (h : done.Perm starts) {n : Nat} :
    collect starts (done.map (f.chunkValues columns n)) =
      starts.map (f.chunkValues columns n) := by
  have hfind (start : Nat) (hs : start ∈ starts) :
      (done.map (f.chunkValues columns n)).find? (·.1 = start) =
        some (f.chunkValues columns n start) := by
    have hkey : (fun c : Nat × List α => decide (c.1 = start)) ∘ f.chunkValues columns n =
        fun s => decide (s = start) := rfl
    rw [List.find?_map, hkey]
    cases hd : done.find? fun s => decide (s = start) with
    | none => exact absurd (List.find?_eq_none.1 hd start (h.mem_iff.2 hs)) (by simp)
    | some s =>
      have hstart := List.find?_some hd
      rw [of_decide_eq_true hstart]
      rfl
  rw [collect, List.filterMap_congr hfind, List.filterMap_eq_map']

theorem overwrite_append {β : Type} {xs : List β} {start : Nat} (h : xs.length = start)
    (ys zs : List β) :
    overwrite start ys (xs ++ zs) = xs ++ ys ++ zs.drop ys.length := by
  subst h
  rw [overwrite, List.take_left, List.drop_length_add_append]

theorem writeBack_concat {β : Type} (done : List (Nat × List β)) (c : Nat × List β)
    (output : List β) :
    writeBack (done ++ [c]) output = overwrite c.1 c.2 (writeBack done output) := by
  rw [writeBack, List.foldl_concat]
  rfl

theorem range_append_chunk {n start : Nat} (h : start ≤ n) :
    List.range start ++ chunk n start = List.range (min (start + chunkSize) n) := by
  rw [chunk, List.range_eq_range', List.range_eq_range']
  have happend := List.range'_append_1 (s := 0) (m := start) (n := min (start + chunkSize) n - start)
  rw [Nat.zero_add] at happend
  rw [happend]
  congr 1
  omega

theorem writeBack_chunks {output : List α} {n k : Nat} (hk : k * chunkSize < n + chunkSize) :
    writeBack (((List.range k).map (· * chunkSize)).map (f.chunkValues columns n)) output =
      (List.range (min (k * chunkSize) n)).map (f.valueAt columns) ++
        output.drop (min (k * chunkSize) n) := by
  induction k with
  | zero => simp [writeBack]
  | succ k ih =>
    rw [Nat.succ_mul] at hk ⊢
    have hle : k * chunkSize ≤ n := by omega
    have hlength : ((List.range (k * chunkSize)).map (f.valueAt columns)).length =
      k * chunkSize := by simp
    rw [List.range_succ, List.map_append, List.map_append, List.map_singleton, List.map_singleton,
      writeBack_concat, ih (by omega), Nat.min_eq_left hle, chunkValues,
      overwrite_append hlength, ← List.map_append, range_append_chunk hle, List.drop_drop]
    congr 2
    rw [List.length_map, chunk, List.length_range']
    omega

theorem writeBack_chunkStarts {output : List α} {n : Nat} (hn : output.length = n) :
    writeBack ((chunkStarts n).map (f.chunkValues columns n)) output =
      (List.range n).map (f.valueAt columns) := by
  have hpos : 0 < chunkSize := by decide
  have hlt := Nat.lt_mul_div_succ (n + chunkSize - 1) hpos
  have hle := Nat.div_mul_le_self (n + chunkSize - 1) chunkSize
  rw [Nat.mul_succ, Nat.mul_comm chunkSize] at hlt
  rw [chunkStarts, writeBack_chunks (by omega), Nat.min_eq_right (by omega), ← hn, List.drop_length,
    List.append_nil]

theorem evaluateShared_eq (hf : f.program.Reusable) (hc : columns.length = f.params.length)
    {n : Nat} (hn : ∀ c ∈ columns, c.size = n) (hne : columns ≠ []) {schedule : List (List Nat)}
    (hs : schedule.flatten.Perm (chunkStarts n)) :
    f.evaluateShared schedule columns = .ok ((List.range n).map (f.valueAt columns)) := by
  obtain ⟨c, rest, rfl⟩ := List.exists_cons_of_ne_nil hne
  have hsize : c.size = n := hn c List.mem_cons_self
  have heven : ¬ (c :: rest).any (·.size ≠ n) = true := by simpa using hn
  have hlength : (List.replicate n (Scalar.ofRat 0 : α)).length = n := List.length_replicate
  simp only [evaluateShared, hsize]
  rw [if_neg heven]
  split
  · rw [evaluateBatch_eq hf hc (hlength.symm ▸ hn), hlength]
  · rw [if_neg (not_not.2 hc), flatMap_work_eq hf, collect_eq hs, writeBack_chunkStarts hlength]

/-- Batches of a compiled function give at each point the value there, one after the other or shared
out in chunks among workers in any way, although each works in one workspace. A batch that fails leaves
the output as it is. -/
theorem evaluateBatch_pointwise {o : CompileOptions} {e : Expr} (hf : o.compile e = .ok f)
    (hc : columns.length = f.params.length) {n : Nat} (hn : ∀ c ∈ columns, c.size = n) :
    (∃ xs : List α, xs.length = n ∧
        (∀ i x, xs[i]? = some x → f.evaluate (row columns i) = .ok x) ∧
        (∀ output, output.length = n → f.evaluateBatch columns output = (.ok (), xs)) ∧
        (columns ≠ [] → ∀ schedule : List (List Nat), schedule.flatten.Perm (chunkStarts n) →
          f.evaluateShared schedule columns = .ok xs)) ∧
      ∀ (columns : List (Array α)) (output : List α) (err : Error),
        (f.evaluateBatch columns output).1 = .error err →
          (f.evaluateBatch columns output).2 = output := by
  have hreusable : f.program.Reusable := CompileOptions.reusable_of_compile hf
  refine ⟨⟨(List.range n).map (f.valueAt columns), ?_, ?_, ?_, ?_⟩, ?_⟩
  · rw [List.length_map, List.length_range]
  · intro i x hx
    rw [List.getElem?_map, Option.map_eq_some_iff] at hx
    obtain ⟨j, hj, rfl⟩ := hx
    obtain ⟨hlt, rfl⟩ := List.getElem?_eq_some_iff.1 hj
    rw [List.getElem_range, evaluate_row hc]
  · rintro output rfl
    exact evaluateBatch_eq hreusable hc hn
  · intro hne schedule hs
    exact evaluateShared_eq hreusable hc hn hne hs
  · intro columns output err h
    exact evaluateBatch_error h

/-- Two workers take three chunks, and the short one comes first. -/
theorem evaluateBatch_pointwise_workers :
    ∃ (f : Compiled) (xs : List Float), f.params = [.ofName "x", .ofName "y"] ∧ xs.length = 600 ∧
      f.evaluateShared [[512, 0], [256]]
        [(Array.range 600).map Nat.toFloat, Array.replicate 600 0.5] = .ok xs ∧
      f.evaluateBatch [(Array.range 600).map Nat.toFloat, Array.replicate 600 0.5]
        (List.replicate 600 0) = (.ok (), xs) := by
  let e := Expr.sumOf [.powOf (.ofName "x") (.ofName "y"), .ofName "x"]
  have hparams : (CompileOptions.compile ⟨none, 0, .heap⟩ e).map (·.params) =
      .ok [.ofName "x", .ofName "y"] := by
    decide +kernel
  cases hf : CompileOptions.compile ⟨none, 0, .heap⟩ e with
  | error err =>
    rw [hf] at hparams
    cases hparams
  | ok f =>
    rw [hf] at hparams
    have hparams : f.params = [.ofName "x", .ofName "y"] := Except.ok.inj hparams
    have hc : [(Array.range 600).map Nat.toFloat, Array.replicate 600 0.5].length =
        f.params.length := by
      rw [hparams]
      rfl
    have hn : ∀ c ∈ [(Array.range 600).map Nat.toFloat, Array.replicate 600 0.5],
        c.size = 600 := by
      simp
    obtain ⟨⟨xs, hlength, -, hbatch, hshared⟩, -⟩ := evaluateBatch_pointwise hf hc hn
    exact ⟨f, xs, hparams, hlength, hshared (List.cons_ne_nil _ _) _ (by decide),
      hbatch _ List.length_replicate⟩

/-! Columns that do not fit: too many, too few, or not of one length. -/

/-- The number of points that columns hold. Without columns there is one point. -/
def points : List (Array α) → Nat
  | [] => 1
  | c :: _ => c.size

/-- Every column has a value at each of the points, and no others. -/
def Aligned (columns : List (Array α)) : Prop := ∀ c ∈ columns, c.size = points columns

omit [Scalar α] in
theorem any_size_ne_points :
    columns.any (·.size ≠ points columns) = true ↔ ¬ Aligned columns := by
  simp [Aligned]

theorem evaluateBatch_of_wrongCount (hc : columns.length ≠ f.params.length) (output : List α) :
    (f.evaluateBatch columns output).1 = .error (f.wrongColumns columns) := by
  rw [evaluateBatch, if_pos hc]

theorem evaluateBatch_of_uneven (hc : columns.length = f.params.length) (ha : ¬ Aligned columns)
    {output : List α} (hn : output.length = points columns) :
    (f.evaluateBatch columns output).1 = .error .unevenColumns := by
  rw [evaluateBatch, if_neg (not_not.2 hc), hn, if_pos (any_size_ne_points.2 ha)]

theorem evaluateBatch_of_aligned (hc : columns.length = f.params.length) (ha : Aligned columns)
    {output : List α} (hn : output.length = points columns) :
    (f.evaluateBatch columns output).1 = .ok () := by
  rw [evaluateBatch, if_neg (not_not.2 hc), hn, if_neg (not_not.2 ha ∘ any_size_ne_points.1)]

theorem evaluateShared_of_uneven (ha : ¬ Aligned columns) (schedule : List (List Nat)) :
    f.evaluateShared schedule columns = .error .unevenColumns :=
  if_pos (any_size_ne_points.2 ha)

/-- Few points are left to a batch, which fails or does not; many are shared out if the number of
columns is right. -/
theorem evaluateShared_of_aligned (ha : Aligned columns) (schedule : List (List Nat)) :
    f.evaluateShared schedule columns = (if points columns < chunkSize then
      match f.evaluateBatch columns (List.replicate (points columns) (Scalar.ofRat 0)) with
      | (.ok _, output) => .ok output
      | (.error err, _) => .error err
    else if columns.length ≠ f.params.length then .error (f.wrongColumns columns)
    else .ok (writeBack (collect (chunkStarts (points columns)) (schedule.flatMap
      (f.work columns (points columns) (f.workspace columns.length))))
        (List.replicate (points columns) (Scalar.ofRat 0)))) :=
  if_neg (not_not.2 ha ∘ any_size_ne_points.1)

theorem evaluateShared_of_wrongCount (ha : Aligned columns) (hc : columns.length ≠ f.params.length)
    (schedule : List (List Nat)) :
    f.evaluateShared schedule columns = .error (f.wrongColumns columns) := by
  rw [evaluateShared_of_aligned ha]
  by_cases hfew : points columns < chunkSize
  · rw [if_pos hfew, evaluateBatch, if_pos hc]
  · rw [if_neg hfew, if_pos hc]

theorem evaluateShared_of_fits (hc : columns.length = f.params.length) (ha : Aligned columns)
    (schedule : List (List Nat)) : ∃ xs, f.evaluateShared schedule columns = .ok xs := by
  rw [evaluateShared_of_aligned ha]
  split
  · have hbatch := evaluateBatch_of_aligned hc ha (List.length_replicate (a := (Scalar.ofRat 0 : α)))
    split
    · exact ⟨_, rfl⟩
    · next herror =>
      rw [herror] at hbatch
      cases hbatch
  · rw [if_neg (not_not.2 hc)]
    exact ⟨_, rfl⟩

/-- Points that are shared out fail if and only if they fail one after the other, into an output of the
length of the first column. They fail with the same error if and only if no more than one thing is
wrong: the number of columns, or their lengths. -/
theorem evaluateShared_fails_iff (f : Compiled) (schedule : List (List Nat))
    {columns : List (Array α)} {output : List α} (hn : output.length = points columns) :
    ((∃ err, f.evaluateShared schedule columns = .error err) ↔
        ∃ err, (f.evaluateBatch columns output).1 = .error err) ∧
      ((∀ err, f.evaluateShared schedule columns = .error err ↔
          (f.evaluateBatch columns output).1 = .error err) ↔
        columns.length = f.params.length ∨ Aligned columns) := by
  by_cases hc : columns.length = f.params.length <;> by_cases ha : Aligned columns
  · obtain ⟨xs, hxs⟩ := evaluateShared_of_fits hc ha schedule
    simp [hxs, evaluateBatch_of_aligned hc ha hn, ha]
  · simp [evaluateShared_of_uneven ha, evaluateBatch_of_uneven hc ha hn, hc]
  · simp [evaluateShared_of_wrongCount ha hc, evaluateBatch_of_wrongCount hc, ha]
  · -- the number and the lengths are wrong, and each way meets the one that it looks at first
    rw [evaluateShared_of_uneven ha, evaluateBatch_of_wrongCount hc]
    have hne : Error.unevenColumns ≠ f.wrongColumns columns := nofun
    simp [hc, ha, hne]

theorem exists_compile_x :
    ∃ f, CompileOptions.compile ⟨none, 0, .heap⟩ (.ofName "x") = .ok f ∧
      f.params = [.ofName "x"] := by
  have hparams : (CompileOptions.compile ⟨none, 0, .heap⟩ (.ofName "x")).map (·.params) =
      .ok [.ofName "x"] := by
    decide +kernel
  exact except_map_eq_ok.1 hparams

/-- Two columns of 600 values each, where one is due. -/
theorem evaluateShared_fails_iff_wide :
    ∃ f, CompileOptions.compile ⟨none, 0, .heap⟩ (.ofName "x") = .ok f ∧ ∀ err,
      f.evaluateShared [[512, 0], [256]] [Array.replicate 600 (1 : Float), Array.replicate 600 2] =
          .error err ↔
        (f.evaluateBatch [Array.replicate 600 (1 : Float), Array.replicate 600 2]
          (List.replicate 600 0)).1 = .error err := by
  obtain ⟨f, hf, -⟩ := exists_compile_x
  have hn : (List.replicate 600 (0 : Float)).length =
      points [Array.replicate 600 (1 : Float), Array.replicate 600 2] :=
    List.length_replicate.trans Array.size_replicate.symm
  have ha : Aligned [Array.replicate 600 (1 : Float), Array.replicate 600 2] := by
    simp [Aligned, points]
  exact ⟨f, hf, (evaluateShared_fails_iff f [[512, 0], [256]] hn).2.2 (.inr ha)⟩

/-- Two columns where one is due, and not of one length: each way has an error of its own. -/
theorem not_evaluateShared_fails_alike :
    ∃ f, CompileOptions.compile ⟨none, 0, .heap⟩ (.ofName "x") = .ok f ∧
      (∀ schedule, f.evaluateShared schedule [#[(1 : Float), 2], #[1]] = .error .unevenColumns) ∧
      (f.evaluateBatch [#[(1 : Float), 2], #[1]] [0, 0]).1 = .error (.wrongCount 1 2) := by
  obtain ⟨f, hf, hparams⟩ := exists_compile_x
  have hc : [#[(1 : Float), 2], #[1]].length ≠ f.params.length := by
    rw [hparams]
    decide
  have ha : ¬ Aligned [#[(1 : Float), 2], #[1]] := by simp [Aligned, points]
  refine ⟨f, hf, evaluateShared_of_uneven ha, ?_⟩
  rw [evaluateBatch_of_wrongCount hc, wrongColumns, hparams]
  rfl

end Symbolic.Compiled
