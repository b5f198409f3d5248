import Jos.Base.RingBuffer
import Jos.Mmu

/-!
# Console input (`kern/console.c`)

The characters that come from the serial port and the keyboard wait in a cyclic buffer.
Interrupts bring them in, and `cons_getc` asks both devices too before it takes one out.
-/

namespace Jos.Console

def consbufsize : Nat := 512

/-- `cons`. -/
abbrev Cons := RingBuffer Byte consbufsize

def Cons.init : Cons := ⟨fun _ => 0, 0, 0⟩

/-- `cons_intr`, where `proc` returns the characters `cs` and then -1. -/
def consIntr (cs : List Byte) (cons : Cons) : Cons :=
  match cs with
  | [] => cons
  | c :: cs =>
      if c = 0 then consIntr cs cons
      else
        let buf := Function.update cons.buf cons.wpos c
        let wpos := cons.wpos + 1
        consIntr cs ⟨buf, cons.rpos, if wpos = consbufsize then 0 else wpos⟩

def serialIntr (serialExists : Bool) (cs : List Byte) (cons : Cons) : Cons :=
  if serialExists then consIntr cs cons else cons

def kbdIntr (cs : List Byte) (cons : Cons) : Cons := consIntr cs cons

/-- `cons_getc`. The serial port has the characters `serial`, the keyboard `kbd`. -/
def consGetc (serialExists : Bool) (serial kbd : List Byte) (cons : Cons) : Byte × Cons :=
  let cons := kbdIntr kbd (serialIntr serialExists serial cons)
  if cons.rpos ≠ cons.wpos then
    let c := cons.buf cons.rpos
    let rpos := cons.rpos + 1
    (c, ⟨cons.buf, if rpos = consbufsize then 0 else rpos, cons.wpos⟩)
  else (0, cons)

/-- What happens to the console. -/
inductive Event
  | serial (cs : List Byte)
  | kbd (cs : List Byte)
  | getc (serial kbd : List Byte)

/-- The characters that the devices deliver. -/
def Event.delivered (serialExists : Bool) : Event → List Byte
  | .serial cs => if serialExists then cs else []
  | .kbd cs => cs
  | .getc cs cs' => (if serialExists then cs else []) ++ cs'

/-- A run, with the results of `cons_getc` in order. -/
def run (serialExists : Bool) : List Event → Cons → List Byte × Cons
  | [], cons => ([], cons)
  | .serial cs :: es, cons => run serialExists es (serialIntr serialExists cs cons)
  | .kbd cs :: es, cons => run serialExists es (kbdIntr cs cons)
  | .getc serial kbd :: es, cons =>
      let (c, cons) := consGetc serialExists serial kbd cons
      let (results, cons) := run serialExists es cons
      (c :: results, cons)

/-! ### The queue -/

/-- The characters that count. -/
def nonzero (cs : List Byte) : List Byte := cs.filter (· ≠ 0)

/-- What is pending once the devices have delivered. -/
def arrived (serialExists : Bool) (pending : List Byte) (e : Event) : List Byte :=
  pending ++ nonzero (e.delivered serialExists)

/-- What is pending after the event. -/
def after (serialExists : Bool) (pending : List Byte) (e : Event) : List Byte :=
  match e with
  | .getc _ _ => (arrived serialExists pending e).tail
  | _ => arrived serialExists pending e

/-- There are never more than `CONSBUFSIZE-1` characters pending. -/
def Bounded (serialExists : Bool) : List Byte → List Event → Prop
  | _, [] => True
  | pending, e :: es =>
      (arrived serialExists pending e).length ≤ consbufsize - 1 ∧
        Bounded serialExists (after serialExists pending e) es

section Fifo

variable {serialExists : Bool} {pending : List Byte} {cons : Cons} {events : List Event}

/-- `cons_intr` pushes what is not 0. -/
theorem consIntr_eq (cs : List Byte) (cons : Cons) :
    consIntr cs cons = (nonzero cs).foldl RingBuffer.push cons := by
  induction cs generalizing cons with
  | nil => rfl
  | cons c cs ih =>
      rw [consIntr, nonzero]
      by_cases hc : c = 0
      · rw [if_pos hc, List.filter_cons_of_neg (by simpa using hc), ih, nonzero]
      · rw [if_neg hc, List.filter_cons_of_pos (by simpa using hc), List.foldl_cons]
        exact ih _

/-- Both devices. -/
theorem polls_eq (serial kbd : List Byte) (cons : Cons) :
    kbdIntr kbd (serialIntr serialExists serial cons) =
      (nonzero ((Event.getc serial kbd).delivered serialExists)).foldl RingBuffer.push cons := by
  rw [kbdIntr, serialIntr, consIntr_eq, Event.delivered]
  cases serialExists with
  | true =>
      rw [if_pos rfl, if_pos rfl, consIntr_eq, nonzero, nonzero, nonzero, List.filter_append,
        List.foldl_append]
  | false => rfl

/-- `cons_getc` takes the first of the pending characters. -/
theorem consGetc_eq (serial kbd : List Byte) (cons : Cons) :
    let polled :=
      (nonzero ((Event.getc serial kbd).delivered serialExists)).foldl RingBuffer.push cons
    consGetc serialExists serial kbd cons = polled.pop.getD (0, polled) := by
  rw [consGetc, polls_eq]
  dsimp only
  rw [RingBuffer.pop]
  split <;> rfl

theorem consGetc_holds {serial kbd : List Byte} (h : cons.Holds pending)
    (bound : (arrived serialExists pending (.getc serial kbd)).length ≤ consbufsize - 1) :
    (consGetc serialExists serial kbd cons).1 =
        (arrived serialExists pending (.getc serial kbd)).headD 0 ∧
      (consGetc serialExists serial kbd cons).2.Holds
        (after serialExists pending (.getc serial kbd)) := by
  rw [arrived, List.length_append, consbufsize] at bound
  have hpolled := @RingBuffer.Holds.pushes _ _ _ _ h
    (nonzero ((Event.getc serial kbd).delivered serialExists)) (show _ < 512 by omega)
  rw [consGetc_eq, after, arrived]
  cases hq : pending ++ nonzero ((Event.getc serial kbd).delivered serialExists) with
  | nil =>
      rw [hq] at hpolled
      rw [hpolled.pop_nil]
      exact ⟨rfl, hpolled⟩
  | cons c rest =>
      rw [hq] at hpolled
      obtain ⟨r, hpop, hrest⟩ := hpolled.pop_cons
      rw [hpop]
      exact ⟨rfl, hrest⟩

theorem Bounded.pending_length (h : cons.Holds pending) : pending.length ≤ consbufsize - 1 :=
  Nat.le_sub_one_of_lt h.room

theorem nonzero_append (cs cs' : List Byte) : nonzero (cs ++ cs') = nonzero cs ++ nonzero cs' :=
  List.filter_append cs cs'

theorem arrived_nonzero (h : ∀ c ∈ pending, c ≠ 0) (e : Event) :
    ∀ c ∈ arrived serialExists pending e, c ≠ 0 := by
  intro c hc
  rcases List.mem_append.mp hc with hc | hc
  · exact h c hc
  · simpa using (List.mem_filter.mp hc).2

/-- What an interrupt brings is pending. -/
theorem interrupt_holds (h : cons.Holds pending) {e : Event}
    (bound : (arrived serialExists pending e).length ≤ consbufsize - 1) :
    (consIntr (e.delivered serialExists) cons).Holds (arrived serialExists pending e) := by
  rw [arrived, List.length_append, consbufsize] at bound
  rw [consIntr_eq, arrived]
  exact h.pushes (show _ < 512 by omega)

theorem run_getc (serial kbd : List Byte) :
    (run serialExists (.getc serial kbd :: events) cons).1 =
      (consGetc serialExists serial kbd cons).1 ::
        (run serialExists events (consGetc serialExists serial kbd cons).2).1 := rfl

/-- A run puts out what was pending and what arrives, in order, up to what is still pending. -/
theorem run_holds (h : cons.Holds pending) (hne : ∀ c ∈ pending, c ≠ 0)
    (bounded : Bounded serialExists pending events) :
    ∃ rest, (run serialExists events cons).2.Holds rest ∧ (∀ c ∈ rest, c ≠ 0) ∧
      nonzero (run serialExists events cons).1 ++ rest =
        pending ++ nonzero (events.flatMap (Event.delivered serialExists)) := by
  induction events generalizing cons pending with
  | nil => exact ⟨pending, h, hne, by simp [run, nonzero]⟩
  | cons e events ih =>
      obtain ⟨bound, bounded⟩ := bounded
      have hne' : ∀ c ∈ arrived serialExists pending e, c ≠ 0 := arrived_nonzero hne e
      cases e with
      | serial cs =>
          have hrun : serialIntr serialExists cs cons =
              consIntr ((Event.serial cs).delivered serialExists) cons := by
            cases serialExists <;> rfl
          obtain ⟨rest, hrest, hzero, heq⟩ := ih (interrupt_holds h bound) hne' bounded
          refine ⟨rest, by rwa [run, hrun], hzero, ?_⟩
          rw [run, hrun, heq, arrived, List.flatMap_cons, nonzero_append, List.append_assoc]
      | kbd cs =>
          obtain ⟨rest, hrest, hzero, heq⟩ := ih (interrupt_holds h bound) hne' bounded
          refine ⟨rest, hrest, hzero, ?_⟩
          rw [List.flatMap_cons, nonzero_append, ← List.append_assoc]
          exact heq
      | getc serial kbd =>
          obtain ⟨hresult, hafter⟩ := consGetc_holds h bound
          obtain ⟨rest, hrest, hzero, heq⟩ :=
            ih hafter (fun c hc => hne' c (List.mem_of_mem_tail hc)) bounded
          refine ⟨rest, hrest, hzero, ?_⟩
          rw [List.flatMap_cons, nonzero_append, ← List.append_assoc, run_getc, hresult, nonzero]
          change List.filter _ _ ++ rest = arrived serialExists pending (.getc serial kbd) ++ _
          rw [after] at heq
          cases hq : arrived serialExists pending (.getc serial kbd) with
          | nil =>
              rw [hq] at heq
              rw [List.headD_nil, List.filter_cons_of_neg (by simp)]
              exact heq
          | cons c queue =>
              have hc : c ≠ 0 := hne' c (by rw [hq]; exact List.mem_cons_self)
              rw [hq] at heq
              rw [List.headD_cons, List.filter_cons_of_pos (by simpa using hc), List.cons_append]
              exact congrArg (c :: ·) heq

/-- Console input is first in, first out: what `cons_getc` has returned and what is pending
are the characters that were delivered. It returns 0 only if nothing is pending. -/
theorem console_fifo (events : List Event) (bounded : Bounded serialExists [] events) :
    ∃ pending,
      nonzero (run serialExists events Cons.init).1 ++ pending =
        nonzero (events.flatMap (Event.delivered serialExists)) ∧
      pending.length ≤ consbufsize - 1 ∧
      (run serialExists events Cons.init).2.rpos < consbufsize ∧
      (run serialExists events Cons.init).2.wpos < consbufsize ∧
      ∀ serial kbd,
        (arrived serialExists pending (.getc serial kbd)).length ≤ consbufsize - 1 →
        (consGetc serialExists serial kbd (run serialExists events Cons.init).2).1 = 0 →
          arrived serialExists pending (.getc serial kbd) = [] := by
  have hempty : Cons.init.Holds [] := RingBuffer.holds_nil (by decide) _
  obtain ⟨pending, holds, hne, heq⟩ := run_holds hempty (by simp) bounded
  refine ⟨pending, heq, Bounded.pending_length holds, holds.rpos, holds.wpos_lt, ?_⟩
  intro serial kbd bound hzero
  rw [(consGetc_holds holds bound).1] at hzero
  cases hq : arrived serialExists pending (.getc serial kbd) with
  | nil => rfl
  | cons c queue =>
      rw [hq, List.headD_cons] at hzero
      have hmem : c ∈ arrived serialExists pending (.getc serial kbd) := by
        rw [hq]
        exact List.mem_cons_self
      exact absurd hzero (arrived_nonzero hne _ c hmem)

/-- `ab` and a NUL from the serial port, then `cons_getc` while the keyboard has `c`. -/
theorem console_fifo_typed :
    let events := [.serial [0x61, 0, 0x62], .getc [] [0x63]]
    ∃ pending, nonzero (run true events Cons.init).1 ++ pending = [0x61, 0x62, 0x63] := by
  obtain ⟨pending, heq, -⟩ := @console_fifo true
    [.serial [0x61, 0, 0x62], .getc [] [0x63]] ⟨by decide, by decide, trivial⟩
  exact ⟨pending, heq⟩

end Fifo

end Jos.Console
