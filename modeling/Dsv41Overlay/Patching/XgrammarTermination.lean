import Dsv41Overlay.Lib.Fallible
import Dsv41Overlay.Lib.TextFile
import Dsv41Overlay.Patching.Backport

/-!
# The XGrammar backport

`patch_xgrammar_termination.py` patches two files of vLLM. It reads both, prepares both
and compiles both results before it writes the first, and it writes through a temporary
file that then replaces the target.
-/

namespace Dsv41Overlay.Patching.XgrammarTermination

/-- `ACCEPT_OLD` and `ACCEPT_UPSTREAM`. -/
def acceptTokens : Body where
  old :=
    ["    def accept_tokens(self, request_id: str, tokens: list[int]) -> bool:",
     "        \"\"\"Accepts a list of tokens and advances the FSM.",
     "",
     "        Returns True if the FSM was advanced successfully.",
     "        Returns False if the FSM failed to advance.",
     "        \"\"\"",
     "        if self._is_terminated:",
     "            return False",
     "        for token in tokens:",
     "            if not self.matcher.accept_token(token):",
     "                logger.error(",
     "                    \"Failed to advance FSM for request %s \"",
     "                    \"for tokens %s. Please file an issue.\",",
     "                    request_id,",
     "                    token,",
     "                )",
     "                return False",
     "            self.num_processed_tokens += 1",
     "        self._is_terminated = self.matcher.is_terminated()",
     "        return True"]
  upstream :=
    ["    def accept_tokens(self, request_id: str, tokens: list[int]) -> bool:",
     "        \"\"\"Accepts a list of tokens and advances the FSM.",
     "",
     "        Returns True if all grammar-constrained tokens were accepted.",
     "        Tokens after termination are ignored. Returns False if the FSM",
     "        failed to advance.",
     "        \"\"\"",
     "        if self._is_terminated:",
     "            return True",
     "        for token in tokens:",
     "            if not self.matcher.accept_token(token):",
     "                logger.error(",
     "                    \"Failed to advance FSM for request %s \"",
     "                    \"for tokens %s. Please file an issue.\",",
     "                    request_id,",
     "                    token,",
     "                )",
     "                return False",
     "            self.num_processed_tokens += 1",
     "            self._is_terminated = self.matcher.is_terminated()",
     "            if self._is_terminated:",
     "                break",
     "        return True"]

/-- `VALIDATE_OLD` and `VALIDATE_UPSTREAM`. -/
def validateTokens : Body where
  old :=
    ["    def validate_tokens(self, tokens: list[int]) -> list[int]:",
     "        \"\"\"Checks if the list of tokens are accepted by the FSM in sequence.",
     "        Will not advance the FSM.",
     "",
     "        Returns the prefix list of tokens that are accepted by the FSM.",
     "        \"\"\"",
     "        accepted_tokens = []",
     "        for token in tokens:",
     "            if self.matcher.accept_token(token):",
     "                accepted_tokens.append(token)",
     "            else:",
     "                break",
     "        if len(accepted_tokens) > 0:",
     "            # Rollback the FSM to the initial state",
     "            self.matcher.rollback(len(accepted_tokens))",
     "        return accepted_tokens"]
  upstream :=
    ["    def validate_tokens(self, tokens: list[int]) -> list[int]:",
     "        \"\"\"Checks if the list of tokens are accepted by the FSM in sequence.",
     "        Will not advance the FSM.",
     "",
     "        Returns the prefix list of tokens that are accepted by the FSM.",
     "        \"\"\"",
     "        if self._is_terminated:",
     "            return []",
     "",
     "        accepted_tokens = []",
     "        for token in tokens:",
     "            if self.matcher.accept_token(token):",
     "                accepted_tokens.append(token)",
     "                if self.matcher.is_terminated():",
     "                    break",
     "            else:",
     "                break",
     "        if len(accepted_tokens) > 0:",
     "            # Rollback the FSM to the initial state",
     "            self.matcher.rollback(len(accepted_tokens))",
     "        return accepted_tokens"]

/-- `RESET_OLD` and `RESET_UPSTREAM`. -/
def reset : Body where
  old :=
    ["    def reset(self):",
     "        self.num_processed_tokens = 0",
     "        self.matcher.reset()"]
  upstream :=
    ["    def reset(self):",
     "        self.matcher.reset()",
     "        self.num_processed_tokens = 0",
     "        self._is_terminated = False"]

/-- `MANAGER_OLD` and `MANAGER_UPSTREAM`. -/
def advance : Body where
  old :=
    ["                    if advance_grammar and not grammar.is_terminated():",
     "                        accepted = grammar.accept_tokens(req_id, [token])",
     "                        if accepted:",
     "                            state_advancements += 1",
     "                        elif not post_reasoning_end_in_window:",
     "                            raise AssertionError(",
     "                                (token, req_id, scheduled_spec_decode_tokens)",
     "                            )"]
  upstream :=
    ["                    if advance_grammar and not grammar.is_terminated():",
     "                        if post_reasoning_end_in_window:",
     "                            accepted = bool(grammar.validate_tokens([token]))",
     "                            if accepted:",
     "                                accepted = grammar.accept_tokens(req_id, [token])",
     "                        else:",
     "                            accepted = grammar.accept_tokens(req_id, [token])",
     "                        if accepted:",
     "                            state_advancements += 1",
     "                        elif not post_reasoning_end_in_window:",
     "                            raise AssertionError(",
     "                                (token, req_id, scheduled_spec_decode_tokens)",
     "                            )"]

/-- The backport of `backend_xgrammar.py`, with `BACKEND_MARK`. -/
def backend : Backport where
  mark := "    # [glm53-xgrammar-termination] Source-exact vLLM 12f64b39 backport."
  first := acceptTokens
  rest := [validateTokens, reset]

/-- The backport of the structured-output manager, with `MANAGER_MARK`. -/
def manager : Backport where
  mark :=
    "                    # [glm53-xgrammar-reasoning] Source-exact vLLM c6e19b3 backport."
  first := advance
  rest := []

def prepareBackend (source : List Char) : Except PrepareError (List Char × Action) :=
  backend.prepare source

def prepareManager (source : List Char) : Except PrepareError (List Char × Action) :=
  manager.prepare source

/-! ### The run -/

/-- A path, as its directory and the name in it. -/
structure Path where
  parent : List String
  name : String
deriving DecidableEq, Repr

def Path.withName (p : Path) (name : String) : Path := { p with name }

/-- The files by path; `none` where there is no file. -/
abbrev Disk := Path → Option ByteArray

/-- What ends `main` without a return. -/
inductive Stop
  | missing (target : Path)
  | unicodeDecode
  | preflight (e : PrepareError)
  | compile (target : Path)
deriving DecidableEq, Repr

/-- The temporary file of `replace_file`. -/
def tmpOf (target : Path) : Path :=
  target.withName ("." ++ target.name ++ ".glm53-xgrammar.tmp")

/-- `replace_file`: write the temporary file, and move it over the target. -/
def replaceFile (disk : Disk) (target : Path) (source : List Char) : Disk :=
  let tmp := tmpOf target
  let written := Function.update disk tmp (some (writeText source))
  Function.update (Function.update written target (written tmp)) tmp none

/-- `target.read_text()`. -/
def readTarget (disk : Disk) (target : Path) : Except Stop (List Char) :=
  match disk target with
  | none => .error (.missing target)
  | some file =>
    match readText file with
    | none => .error .unicodeDecode
    | some text => .ok text

/-- A text and what is to stand in its place. -/
structure Prepared where
  source : List Char
  patched : List Char

/-- `main` before the first write. `compiles` says whether `compile` accepts a text. -/
def preflight (compiles : Path → List Char → Bool) (backendTarget managerTarget : Path)
    (disk : Disk) : Except Stop (Prepared × Prepared) := do
  Fallible.require (disk backendTarget ≠ none) (.missing backendTarget)
  Fallible.require (disk managerTarget ≠ none) (.missing managerTarget)
  let backendSource ← readTarget disk backendTarget
  let managerSource ← readTarget disk managerTarget
  let backendPrepared ← (prepareBackend backendSource).mapError .preflight
  let managerPrepared ← (prepareManager managerSource).mapError .preflight
  Fallible.require (compiles backendTarget backendPrepared.1) (.compile backendTarget)
  Fallible.require (compiles managerTarget managerPrepared.1) (.compile managerTarget)
  return (⟨backendSource, backendPrepared.1⟩, ⟨managerSource, managerPrepared.1⟩)

/-- Replace a target, if its text is new. -/
def install (disk : Disk) (target : Path) (p : Prepared) : Disk :=
  if p.patched ≠ p.source then replaceFile disk target p.patched else disk

/-- `main`. -/
def main (compiles : Path → List Char → Bool) (backendTarget managerTarget : Path)
    (disk : Disk) : Except Stop ℕ × Disk :=
  match preflight compiles backendTarget managerTarget disk with
  | .error stop => (.error stop, disk)
  | .ok (b, m) => (.ok 0, install (install disk backendTarget b) managerTarget m)

/-! ### What a run does -/

section Runs

variable {compiles : Path → List Char → Bool} {backendTarget managerTarget : Path}
  {disk disk' : Disk}

/-- **A run that raises has written nothing.** -/
theorem main_error {stop : Stop}
    (h : main compiles backendTarget managerTarget disk = (.error stop, disk')) :
    disk' = disk := by
  rw [main] at h
  split at h
  · exact (Prod.mk.inj h).2.symm
  · cases (Prod.mk.inj h).1

/-- A target reads, its text passes, and what it becomes compiles. -/
def Ready (compiles : Path → List Char → Bool) (b : Backport) (disk : Disk) (target : Path)
    (p : Prepared) : Prop :=
  readTarget disk target = .ok p.source ∧
    (∃ action, b.prepare p.source = .ok (p.patched, action)) ∧ compiles target p.patched = true

theorem readTarget_eq_ok {target : Path} {text : List Char} :
    readTarget disk target = .ok text ↔
      ∃ file, disk target = some file ∧ readText file = some text := by
  rw [readTarget]
  -- a missing file raises; an existing one is decoded
  cases disk target with
  | none =>
    constructor
    · intro h
      cases h
    · rintro ⟨_, h, -⟩
      cases h
  | some file =>
    dsimp only
    constructor
    · intro h
      refine ⟨file, rfl, ?_⟩
      cases hread : readText file with
      | none =>
        rw [hread] at h
        cases h
      | some text' =>
        rw [hread] at h
        exact congrArg some (Except.ok.inj h)
    · rintro ⟨file', hfile, hread⟩
      obtain rfl := Option.some.inj hfile
      rw [hread]

theorem preflight_eq_ok {b m : Prepared} :
    preflight compiles backendTarget managerTarget disk = .ok (b, m) ↔
      Ready compiles backend disk backendTarget b ∧
        Ready compiles manager disk managerTarget m := by
  have hthere {target : Path} {text : List Char} (h : readTarget disk target = .ok text) :
      disk target ≠ none := by
    -- a file that was read is there
    obtain ⟨file, hfile, -⟩ := readTarget_eq_ok.mp h
    rw [hfile]
    exact Option.some_ne_none file
  simp only [preflight, prepareBackend, prepareManager, Fallible.bind_eq_ok,
    Fallible.require_eq_ok, Fallible.mapError_eq_ok, Ready]
  constructor
  -- each step of the preflight has gone through
  · rintro ⟨-, -, -, -, s, hs, s', hs', ⟨t, a⟩, ht, ⟨t', a'⟩, ht', -, hc, -, hc', h⟩
    obtain ⟨rfl, rfl⟩ := Prod.mk.inj (Except.ok.inj h)
    exact ⟨⟨hs, ⟨a, ht⟩, hc⟩, hs', ⟨a', ht'⟩, hc'⟩
  -- and if each goes through, so does the preflight
  · rintro ⟨⟨hs, ⟨a, ht⟩, hc⟩, hs', ⟨a', ht'⟩, hc'⟩
    exact ⟨(), hthere hs, (), hthere hs', _, hs, _, hs', _, ht, _, ht', (), hc, (), hc', rfl⟩

/-- **When a text is refused nothing is written.** -/
theorem main_refused {source source' : List Char} {e : PrepareError}
    (hsource : readTarget disk backendTarget = .ok source)
    (hsource' : readTarget disk managerTarget = .ok source')
    (h : prepareBackend source = .error e ∨ prepareManager source' = .error e) :
    ∃ stop, main compiles backendTarget managerTarget disk = (.error stop, disk) := by
  rw [main]
  -- the preflight prepares both texts before it writes
  cases hpreflight : preflight compiles backendTarget managerTarget disk with
  | error stop => exact ⟨stop, rfl⟩
  | ok prepared =>
    obtain ⟨⟨hb, ⟨action, hprepare⟩, -⟩, hm, ⟨action', hprepare'⟩, -⟩ :=
      preflight_eq_ok.mp hpreflight
    rw [← Except.ok.inj (hsource.symm.trans hb), ← prepareBackend] at hprepare
    rw [← Except.ok.inj (hsource'.symm.trans hm), ← prepareManager] at hprepare'
    -- one of the two refuses
    obtain h | h := h
    · rw [h] at hprepare
      cases hprepare
    · rw [h] at hprepare'
      cases hprepare'

theorem tmpOf_ne (target : Path) : tmpOf target ≠ target := by
  intro h
  have hname : ("." ++ target.name ++ ".glm53-xgrammar.tmp").length = target.name.length :=
    congrArg (fun p => p.name.length) h
  simp only [String.length_append] at hname
  have : ".".length = 1 := rfl
  omega

/-- What is installed in a target. -/
theorem install_frame {p : Prepared} {target other : Path} (h : other ≠ target)
    (htmp : other ≠ tmpOf target) : install disk target p other = disk other := by
  rw [install]
  split
  · rw [replaceFile, Function.update_of_ne htmp, Function.update_of_ne h,
      Function.update_of_ne htmp]
  · rfl

/-- **An installed target is ready to stay as it is.** -/
theorem Ready.install {b : Backport} {target : Path} {p : Prepared}
    (h : Ready compiles b disk target p) :
    Ready compiles b (install disk target p) target ⟨p.patched, p.patched⟩ := by
  obtain ⟨hread, ⟨action, hprepare⟩, hcompiles⟩ := h
  refine ⟨?_, ⟨_, Backport.prepare_again hprepare⟩, hcompiles⟩
  rw [XgrammarTermination.install]
  split
  -- a text that was read has no carriage return, so it is read back as it was written
  · have hcr : '\r' ∉ p.patched := by
      obtain ⟨file, -, hfile⟩ := readTarget_eq_ok.mp hread
      obtain ⟨text, -, htext⟩ := Option.map_eq_some_iff.mp hfile
      exact Backport.not_mem_of_prepare hprepare (htext ▸ not_mem_universalNewlines _)
    refine readTarget_eq_ok.mpr ⟨writeText p.patched, ?_, ?_⟩
    · rw [replaceFile, Function.update_of_ne (tmpOf_ne target).symm, Function.update_self,
        Function.update_self]
    · rw [readText_writeText, universalNewlines_eq_self hcr]
  -- nothing is written where nothing changed
  · next hsame =>
    rw [not_not] at hsame
    rw [hread, hsame]

theorem Ready.frame {b : Backport} {target other : Path} {p q : Prepared}
    (h : Ready compiles b disk other q) (hne : other ≠ target) (htmp : other ≠ tmpOf target) :
    Ready compiles b (XgrammarTermination.install disk target p) other q := by
  refine ⟨?_, h.2⟩
  rw [readTarget, install_frame hne htmp]
  exact h.1

/-- **A second run changes nothing** where no target is the other's temporary file. -/
theorem main_again {code : ℕ} (hne : backendTarget ≠ managerTarget)
    (hbackend : backendTarget ≠ tmpOf managerTarget)
    (hmanager : managerTarget ≠ tmpOf backendTarget)
    (h : main compiles backendTarget managerTarget disk = (.ok code, disk')) :
    main compiles backendTarget managerTarget disk' = (.ok 0, disk') := by
  rw [main] at h
  split at h
  · cases (Prod.mk.inj h).1
  · next b m hpreflight =>
    obtain ⟨-, rfl⟩ := Prod.mk.inj h
    -- both texts were prepared before the first run wrote
    obtain ⟨hb, hm⟩ := preflight_eq_ok.mp hpreflight
    rw [main, preflight_eq_ok.mpr ⟨hb.install.frame hne hbackend,
      (hm.frame hne.symm hmanager).install⟩]
    dsimp only
    -- a second run finds both files as it would leave them
    rw [XgrammarTermination.install, if_neg (not_not.mpr rfl), XgrammarTermination.install,
      if_neg (not_not.mpr rfl)]

end Runs

end Dsv41Overlay.Patching.XgrammarTermination
