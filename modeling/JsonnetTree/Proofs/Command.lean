import JsonnetTree.Command
import JsonnetTree.Proofs.Depth
import JsonnetTree.Proofs.Lowering.Faults

/-!
# The depth limit of commands

Commands keep the limit on the depth in three ways: by the check of the depth, by a walk that
numbers expressions, and by a walk that looks for imports. All of them refuse the same trees
(`Command.run_of_lt_depth`). Where the depth is within the limit, a command that works on the given
tree may fail for other reasons, but not for the depth.
-/

namespace JsonnetTree

/-- Every walk that ends early has the same exit code. -/
theorem WalkError.exitCode_failure (err : WalkError) : err.failure.exitCode = 4 := rfl

/-- A failure for the depth comes from an error for the depth: all others tell a phase. -/
theorem WalkError.eq_depthExceeded_of_failure_eq {err : WalkError} {n : Nat} {location : Location}
    (h : err.failure = (WalkError.depthExceeded n location).failure) :
    ∃ m place, err = .depthExceeded m place := by
  cases err with
  | depthExceeded m place => exact ⟨m, place, rfl⟩
  | hook phase place message =>
    have hphase : some phase.name = none := congrArg Failure.phase? h
    cases hphase

/-! ## Trees that are too deep -/

section TooDeep

variable {t : Tree} {limit : Nat} (h : limit < t.root.depth)

include h

/-- A tree that is too deep is not printed. -/
theorem Tree.print_of_lt_depth (options : LayoutOptions) :
    ∃ location, t.print options limit = .error (.walk (.depthExceeded limit location)) := by
  obtain ⟨location, hcheck⟩ := Expr.checkDepth_of_lt h
  exact ⟨location, by rw [print, hcheck]; rfl⟩

/-- A tree that is too deep is not expanded. -/
theorem Tree.expand_of_lt_depth :
    ∃ location, t.expand limit = .error (.depthExceeded limit location) := by
  obtain ⟨location, hcheck⟩ := Expr.checkDepth_of_lt h
  exact ⟨location, by rw [expand, hcheck]; rfl⟩

/-- A raw tree that is too deep is not lowered. -/
theorem Tree.lower_of_lt_depth (hraw : t.shape = .raw) :
    ∃ location, t.lower limit = .error (.walk (.depthExceeded limit location)) := by
  obtain ⟨location, hcheck⟩ := Expr.checkDepth_of_lt h
  refine ⟨location, ?_⟩
  rw [lower, if_neg (not_not.mpr hraw), hcheck]
  rfl

/-- The symbols of a tree that is too deep are not listed, whether it is lowered first or not. -/
theorem Tree.symbols_of_lt_depth :
    ∃ location, t.symbols limit = .error (WalkError.depthExceeded limit location).failure := by
  cases hshape : t.shape with
  | raw =>
    obtain ⟨location, hlower⟩ := lower_of_lt_depth h hshape
    refine ⟨location, ?_⟩
    simp only [symbols, lowered, hshape, hlower]
    rfl
  | lowered =>
    obtain ⟨location, hcheck⟩ := Expr.checkDepth_of_lt h
    have hextract : t.root.extractSymbols limit = .error (.depthExceeded limit location) := by
      rw [Expr.extractSymbols, hcheck]
      rfl
    refine ⟨location, ?_⟩
    simp only [symbols, lowered, hshape]
    change (t.root.extractSymbols limit).mapError WalkError.failure = _
    rw [hextract]
    rfl

/-- The graph of a tree that is too deep is not drawn. -/
theorem Tree.graph_of_lt_depth : ∃ err, t.root.graph limit = .error err := by
  obtain ⟨err, count, hwalk⟩ := Expr.walk_of_lt_depth countHook h 0
  refine ⟨err, ?_⟩
  simp only [Expr.graph, Expr.numbered, ExceptT.run, hwalk]
  rfl

/-- The imports of a tree that is too deep are not listed. -/
theorem Tree.imports_of_lt_depth : ∃ err, t.root.imports limit = .error err := by
  obtain ⟨err, found, hwalk⟩ := Expr.walk_of_lt_depth importHook h []
  exact ⟨err, by simp only [Expr.imports, ExceptT.run, hwalk]⟩

/-- A command that is run on a tree that is too deep fails with the exit code of a walk that ended
early. Only lowering may have another reason to fail, if the tree is lowered already. -/
theorem Command.run_of_lt_depth {command : Command} (hraw : command = .lower → t.shape = .raw) :
    ∃ failure, command.run limit t = .error failure ∧ failure.exitCode = 4 := by
  cases command with
  | graph =>
    obtain ⟨err, hgraph⟩ := Tree.graph_of_lt_depth h
    exact ⟨err.failure, by rw [run, hgraph]; rfl, err.exitCode_failure⟩
  | symbols format =>
    obtain ⟨location, hsymbols⟩ := Tree.symbols_of_lt_depth h
    exact ⟨_, by rw [run, hsymbols]; rfl, WalkError.exitCode_failure _⟩
  | print options =>
    obtain ⟨location, hprint⟩ := Tree.print_of_lt_depth h options
    exact ⟨_, by rw [run, hprint]; rfl, WalkError.exitCode_failure _⟩
  | expand options =>
    obtain ⟨location, hexpand⟩ := Tree.expand_of_lt_depth h
    exact ⟨_, by rw [run, hexpand]; rfl, WalkError.exitCode_failure _⟩
  | lower =>
    obtain ⟨location, hlower⟩ := Tree.lower_of_lt_depth h (hraw rfl)
    exact ⟨_, by rw [run, hlower]; rfl, WalkError.exitCode_failure _⟩
  | imports =>
    obtain ⟨err, himports⟩ := Tree.imports_of_lt_depth h
    exact ⟨err.failure, by rw [run, himports]; rfl, err.exitCode_failure⟩

end TooDeep

/-! ## Trees within the limit -/

section Within

variable {t : Tree} {limit : Nat} (h : t.root.depth ≤ limit)

include h

/-- Printing a tree within the limit is not stopped by a walk. -/
theorem Tree.failsOnly_print (options : LayoutOptions) :
    Outcome.FailsOnly (fun err => ∀ e, err ≠ .walk e) (t.print options limit) := by
  rw [print, Expr.checkDepth_of_le h]
  refine (Outcome.failsOnly_ok ()).bind fun _ _ => ?_
  dsimp only
  split
  next halt =>
    rintro _ ⟨⟩ e
    simp
  next => exact Outcome.failsOnly_ok _

/-- Lowering a tree within the limit is not stopped by a walk. -/
theorem Tree.failsOnly_lower :
    Outcome.FailsOnly (fun err => ∀ e, err ≠ .walk e) (t.lower limit) := by
  by_cases hraw : t.shape = .raw
  · rw [lower, if_neg (not_not.mpr hraw), Expr.checkDepth_of_le h]
    have hroot : Outcome.FailsOnly (fun err => ∀ e, err ≠ .walk e) t.root.lower := by
      rintro _ herr e rfl
      obtain ⟨part, location, hpart⟩ := Expr.eq_missingPart_of_lower herr
      cases hpart
    exact (Outcome.failsOnly_ok ()).bind fun _ _ => hroot.bind fun _ _ => Outcome.failsOnly_ok _
  · rw [lower, if_pos hraw]
    rintro _ ⟨⟩ e
    simp

/-- A walk over a tree within the limit does not fail for the depth, whatever is made of its
result. -/
theorem Tree.failure_walk_ne {σ : Type} (hook : Hook σ) {s : σ} {err : WalkError}
    (herr : (t.root.walk hook limit s).1 = .error err) (n : Nat) (location : Location) :
    err.failure ≠ (WalkError.depthExceeded n location).failure := by
  intro heq
  obtain ⟨m, place, rfl⟩ := WalkError.eq_depthExceeded_of_failure_eq heq
  exact Expr.walk_ne_depthExceeded hook h s m place herr

/-- A command that works on the tree as it is does not fail for the depth of a tree within the
limit. -/
theorem Command.run_ne_depthExceeded {command : Command}
    (hsymbols : ∀ format, command ≠ .symbols format)
    (hexpand : ∀ options, command ≠ .expand options) (n : Nat) (location : Location) :
    command.run limit t ≠ .error (WalkError.depthExceeded n location).failure := by
  cases command with
  | symbols format => exact absurd rfl (hsymbols format)
  | expand options => exact absurd rfl (hexpand options)
  | graph =>
    cases hwalk : (t.root.walk countHook limit 0).1 with
    | ok _ =>
      simp only [run, Expr.graph, Expr.numbered, ExceptT.run, hwalk]
      simp [bind, Except.bind, pure, Except.pure, Except.mapError]
    | error err =>
      have hrun : Command.run limit t .graph = .error err.failure := by
        simp only [run, Expr.graph, Expr.numbered, ExceptT.run, hwalk]
        rfl
      rw [hrun]
      exact fun heq => Tree.failure_walk_ne h countHook hwalk n location (Except.error.inj heq)
  | imports =>
    obtain ⟨result, found, hwalk⟩ : ∃ result found,
      t.root.walk importHook limit [] = (result, found) := ⟨_, _, rfl⟩
    cases result with
    | ok _ =>
      simp only [run, Expr.imports, ExceptT.run, hwalk]
      simp [bind, Except.bind, pure, Except.pure, Except.mapError]
    | error err =>
      have hrun : Command.run limit t .imports = .error err.failure := by
        simp only [run, Expr.imports, ExceptT.run, hwalk]
        rfl
      have herr : (t.root.walk importHook limit []).1 = .error err := by rw [hwalk]
      rw [hrun]
      exact fun heq => Tree.failure_walk_ne h importHook herr n location (Except.error.inj heq)
  | print options =>
    cases hprint : t.print options limit with
    | ok text => simp [run, hprint, Except.mapError]
    | error err =>
      have hwalk := Tree.failsOnly_print h options err hprint
      cases err with
      | walk e => exact absurd rfl (hwalk e)
      | halted halt => simp [run, hprint, Except.mapError, PrintError.failure, WalkError.failure]
  | lower =>
    cases hlower : t.lower limit with
    | ok lowered => simp [run, hlower, Except.mapError, bind, Except.bind, pure, Except.pure]
    | error err =>
      have hwalk := Tree.failsOnly_lower h err hlower
      cases err with
      | walk e => exact absurd rfl (hwalk e)
      | wrongShape found | missingPart part place =>
        simp [run, hlower, Except.mapError, bind, Except.bind, LowerError.failure,
          WalkError.failure]

end Within

/-! ## One limit for all commands -/

/-- The limit on the depth is the same for all commands. On a tree that is deeper every command
fails with the exit code of a walk that ended early, lowering at least if the tree is raw. On a tree
that is no deeper, the commands that work on the tree as it is never fail for the depth. -/
theorem Command.run_depth_limit (limit : Nat) (t : Tree) :
    (limit < t.root.depth → ∀ command : Command, (command = .lower → t.shape = .raw) →
      ∃ failure, command.run limit t = .error failure ∧ failure.exitCode = 4) ∧
    (t.root.depth ≤ limit → ∀ command : Command,
      (∀ format, command ≠ .symbols format) → (∀ options, command ≠ .expand options) →
      ∀ n location, command.run limit t ≠ .error (WalkError.depthExceeded n location).failure) :=
  ⟨fun h _ hraw => run_of_lt_depth h hraw,
    fun h _ hsymbols hexpand => run_ne_depthExceeded h hsymbols hexpand⟩

/-- An import in two parentheses has two levels below it, so that it cannot be lowered with a limit
of one; with a limit of two, drawing it does not fail for the depth. -/
theorem Command.run_depth_limit_parens :
    let t : Tree := ⟨.raw, Build.parens (Build.parens (Build.importCode "a")), []⟩
    t.root.depth = 2 ∧
      (∃ failure, Command.run 1 t .lower = .error failure ∧ failure.exitCode = 4) ∧
      ∀ n location,
        Command.run 2 t .graph ≠ .error (WalkError.depthExceeded n location).failure := by
  intro t
  have hdepth : t.root.depth = 2 := rfl
  refine ⟨hdepth, ?_, ?_⟩
  · exact (run_depth_limit 1 t).1 (by omega) .lower fun _ => rfl
  · exact (run_depth_limit 2 t).2 (by omega) .graph (fun _ => by simp) fun _ => by simp

end JsonnetTree
