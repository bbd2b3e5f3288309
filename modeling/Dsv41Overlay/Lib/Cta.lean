import Mathlib.Data.Nat.Notation
import Mathlib.Logic.Function.Basic
import Dsv41Overlay.Lib.System

/-!
# Thread blocks

The threads of a block run their programs in any order on one memory. What orders them are
barriers, which let no thread go on before every thread has arrived; exchanges of registers
inside a warp, in which the threads of a warp take part together; and asynchronous copies. A
copy is issued with its value and lands at any later time, together with no other: a thread
puts the copies it has issued into groups, and can wait until all but its last `n` groups
have landed. Until then the destination holds anything.

Programs are trees, so that a loop is a recursion that builds one. A `note` only marks a point of
the program, for statements to refer to; the threads keep the notes that they have passed.
-/

namespace Dsv41Overlay.Cta

universe u₁ u₂ u₃ u₄ u₅

/-- A thread's program: threads `T`, addresses `A`, values `V`, notes `X`. -/
inductive Prog (T : Type u₁) (A : Type u₂) (V : Type u₃) (X : Type u₄)
  | done
  | load (a : A) (k : V → Prog T A V X)
  | store (a : A) (v : V) (k : Prog T A V X)
  /-- A read, a change and a write at once; the value read is not used. -/
  | atomic (a : A) (f : V → V) (k : Prog T A V X)
  /-- Give `v` to the warp and take what `src` gives. -/
  | shfl (v : V) (src : T) (k : V → Prog T A V X)
  | copy (a : A) (v : V) (k : Prog T A V X)
  | commit (k : Prog T A V X)
  | wait (n : ℕ) (k : Prog T A V X)
  | sync (k : Prog T A V X)
  | note (x : X) (k : Prog T A V X)

/-- A copy that its thread has not waited for. -/
structure Copy (A : Type u₂) (V : Type u₃) where
  dst : A
  val : V
  group : ℕ
  landed : Bool

/-- A thread: what it has still to do, its copies, how many groups it has committed, and the notes
that it has passed. -/
structure Thread (T : Type u₁) (A : Type u₂) (V : Type u₃) (X : Type u₄) where
  prog : Prog T A V X
  copies : List (Copy A V)
  committed : ℕ
  passed : List X

structure State (T : Type u₁) (A : Type u₂) (V : Type u₃) (X : Type u₄) where
  mem : A → V
  thread : T → Thread T A V X

variable {T : Type u₁} {A : Type u₂} {V : Type u₃} {X : Type u₄} {W : Type u₅}

/-- The copy has been issued and has not landed. -/
def State.Outstanding (s : State T A V X) (t : T) (a : A) (v : V) : Prop :=
  ∃ c ∈ (s.thread t).copies, c.landed = false ∧ c.dst = a ∧ c.val = v

/-- The address that the next operation of a program is about. -/
def Prog.Touches (a : A) : Prog T A V X → Prop
  | .load b _ | .store b _ _ | .atomic b _ _ | .copy b _ _ => b = a
  | _ => False

/-- The address that the next operation of a program changes. -/
def Prog.Writes (a : A) : Prog T A V X → Prop
  | .store b _ _ | .atomic b _ _ | .copy b _ _ => b = a
  | _ => False

section Step

variable [DecidableEq T] [DecidableEq A] [DecidableEq W]

/-- Thread `t` goes on as `th`, the memory is `mem`. -/
def State.put (s : State T A V X) (mem : A → V) (t : T) (th : Thread T A V X) : State T A V X where
  mem := mem
  thread := Function.update s.thread t th

/-- The threads go on with the given programs. -/
def State.goto (s : State T A V X) (prog : T → Prog T A V X) : State T A V X :=
  { s with thread := fun t => { s.thread t with prog := prog t } }

/-- One step of a block whose threads are in the given warps. -/
inductive Step (warp : T → W) : State T A V X → State T A V X → Prop
  | load {s : State T A V X} {t : T} {a k} (h : (s.thread t).prog = .load a k) :
    Step warp s (s.put s.mem t { s.thread t with prog := k (s.mem a) })
  | store {s : State T A V X} {t : T} {a v k} (h : (s.thread t).prog = .store a v k) :
    Step warp s (s.put (Function.update s.mem a v) t { s.thread t with prog := k })
  | atomic {s : State T A V X} {t : T} {a f k} (h : (s.thread t).prog = .atomic a f k) :
    Step warp s (s.put (Function.update s.mem a (f (s.mem a))) t { s.thread t with prog := k })
  /-- The threads of warp `w` exchange. -/
  | shfl {s : State T A V X} (t₀ : T) (v : T → V) (src : T → T) (k : T → V → Prog T A V X)
    (h : ∀ t, warp t = warp t₀ → (s.thread t).prog = .shfl (v t) (src t) (k t)) :
    Step warp s (s.goto fun t =>
      if warp t = warp t₀ then k t (v (src t)) else (s.thread t).prog)
  /-- The destination holds anything, here `junk`. -/
  | copy {s : State T A V X} {t : T} {a v k} (junk : V) (h : (s.thread t).prog = .copy a v k) :
    Step warp s (s.put (Function.update s.mem a junk) t
      { s.thread t with
        prog := k
        copies := (s.thread t).copies ++ [⟨a, v, (s.thread t).committed, false⟩] })
  | commit {s : State T A V X} {t : T} {k} (h : (s.thread t).prog = .commit k) :
    Step warp s (s.put s.mem t
      { s.thread t with prog := k, committed := (s.thread t).committed + 1 })
  /-- All but the last `n` groups have landed. -/
  | wait {s : State T A V X} {t : T} {n k} (h : (s.thread t).prog = .wait n k)
    (hlanded : ∀ c ∈ (s.thread t).copies, c.group + n < (s.thread t).committed →
      c.landed = true) :
    Step warp s (s.put s.mem t
      { s.thread t with
        prog := k
        copies := (s.thread t).copies.filter fun c =>
          decide ¬ c.group + n < (s.thread t).committed })
  /-- Every thread has arrived. -/
  | sync {s : State T A V X} (t₀ : T) (k : T → Prog T A V X)
    (h : ∀ t, (s.thread t).prog = .sync (k t)) : Step warp s (s.goto k)
  | note {s : State T A V X} {t : T} {x k} (h : (s.thread t).prog = .note x k) :
    Step warp s (s.put s.mem t
      { s.thread t with prog := k, passed := (s.thread t).passed ++ [x] })
  | land {s : State T A V X} {t : T} {c₁ c₂ : List (Copy A V)} {c : Copy A V}
    (h : (s.thread t).copies = c₁ ++ c :: c₂) (hc : c.landed = false) :
    Step warp s (s.put (Function.update s.mem c.dst c.val) t
      { s.thread t with copies := c₁ ++ { c with landed := true } :: c₂ })

/-- A block at its start. -/
def start (mem : A → V) (program : T → Prog T A V X) : State T A V X where
  mem := mem
  thread t := ⟨program t, [], 0, []⟩

/-- The runs of a block, from the given memory on. -/
def runs (warp : T → W) (mem : A → V) (program : T → Prog T A V X) :
    System (State T A V X) Unit where
  init s := s = start mem program
  step s _ s' := Step warp s s'

end Step

/-- Every thread has come to its end. -/
def State.Finished (s : State T A V X) : Prop := ∀ t, (s.thread t).prog = .done

/-! ### Conditions and loops -/

/-- `if (c)`: a store. -/
def Prog.storeIf (c : Prop) [Decidable c] (a : A) (v : V) (k : Prog T A V X) : Prog T A V X :=
  if c then .store a v k else k

/-- `for x in l`: the program of each element in order, then `k`. -/
def Prog.each {ι : Type*} (body : ι → Prog T A V X → Prog T A V X) (l : List ι)
    (k : Prog T A V X) : Prog T A V X :=
  l.foldr body k

/-- Read the addresses in order. -/
def Prog.loads : List A → (List V → Prog T A V X) → Prog T A V X
  | [], k => k []
  | a :: as, k => .load a fun v => Prog.loads as fun vs => k (v :: vs)

/-- Read lists of addresses, one after the other. -/
def Prog.gathers : List (List A) → (List (List V) → Prog T A V X) → Prog T A V X
  | [], k => k []
  | as :: l, k => Prog.loads as fun vs => Prog.gathers l fun vss => k (vs :: vss)

/-- Store the values in order. -/
def Prog.stores (l : List (A × V)) (k : Prog T A V X) : Prog T A V X :=
  l.foldr (fun av k => .store av.1 av.2 k) k

/-- Issue the copies in order. -/
def Prog.copies (l : List (A × V)) (k : Prog T A V X) : Prog T A V X :=
  l.foldr (fun av k => .copy av.1 av.2 k) k

/-- `for x in l`, with an accumulator. -/
def Prog.fold {ι S : Type*} (body : ι → S → (S → Prog T A V X) → Prog T A V X) :
    List ι → S → (S → Prog T A V X) → Prog T A V X
  | [], x, k => k x
  | i :: l, x, k => body i x fun y => Prog.fold body l y k

/-- Rounds that only issue copies issue them one after the other. -/
theorem Prog.each_copies {ι : Type*} (f : ι → List (A × V)) (l : List ι) (k : Prog T A V X) :
    Prog.each (fun i k => Prog.copies (f i) k) l k = Prog.copies (l.flatMap f) k := by
  induction l with
  | nil => rfl
  | cons i l ih =>
    rw [List.flatMap_cons, Prog.copies, List.foldr_append]
    exact congrArg (Prog.copies (f i)) ih

theorem Prog.copies_append (l l' : List (A × V)) (k : Prog T A V X) :
    Prog.copies (l ++ l') k = Prog.copies l (Prog.copies l' k) := List.foldr_append

end Dsv41Overlay.Cta
