/-!
# The world around a program

Two things that a program asks for are answered from outside: a line that it writes is
taken or refused, and a random number is drawn. All that is known of the answers is that a
random number lies below its bound; what holds of a program holds wherever it runs.

Both are asked again and again (`Service`), and the answer to the same question may change.
Within one run the questions before are always the same, so an answer that goes by
them goes by their number.
-/

namespace Linewise

/-- Something outside that answers questions. -/
structure Service (α β : Type) where
  /-- The answer to a question that comes after so many others. -/
  answer : Nat → α → β
  /-- How many questions there have been. -/
  asked : Nat

/-- The answer to the next question. -/
def Service.ask {α β : Type} (s : Service α β) (a : α) : β × Service α β :=
  (s.answer s.asked a, { s with asked := s.asked + 1 })

/-- Where lines are written to. A line that is refused is refused for a reason. -/
abbrev Sink := Service String (Except String Unit)

/-- The sink that takes every line. -/
def Sink.ready : Sink where
  answer _ _ := .ok ()
  asked := 0

/-- Where random numbers are drawn from: they are not negative, and less than a bound that is
    positive. -/
structure Draws extends Service Int64 Int64 where
  in_range : ∀ k n, 0 < n → 0 ≤ answer k n ∧ answer k n < n

namespace Draws

/-- The next random number. -/
def draw (d : Draws) (n : Int64) : Int64 × Draws :=
  (d.answer d.asked n, { d with asked := d.asked + 1 })

/-- A number made of the state of a generator and of another number. -/
def mix (g : StdGen) (k : Nat) : Nat :=
  (mixHash (mixHash g.s1.toUInt64 g.s2.toUInt64) k.toUInt64).toNat

/-- Random numbers that are made of the state of a generator. -/
def ofGenerator (g : StdGen) : Draws where
  answer k n := .ofNat (mix g k % n.toInt.toNat)
  asked := 0
  in_range k n hn := by
    rw [Int64.lt_iff_toInt_lt, Int64.toInt_zero] at hn
    have hlt := Nat.mod_lt (mix g k) (Int.lt_toNat.2 hn)
    have hmax : n.toInt ≤ 2 ^ 63 - 1 := n.toInt_le
    rw [Int64.le_iff_toInt_le, Int64.lt_iff_toInt_lt, Int64.toInt_zero,
      Int64.toInt_ofNat_of_lt (by omega)]
    omega

end Draws

/-- What answers a program. -/
structure World where
  sink : Sink
  draws : Draws

/-- The world of a generator, in which every line is taken. -/
def World.ofGenerator (g : StdGen) : World where
  sink := .ready
  draws := .ofGenerator g

instance : Coe StdGen World :=
  ⟨World.ofGenerator⟩

end Linewise
