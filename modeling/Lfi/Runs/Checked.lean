/-
# Programs that ask something of their states

A `Checked σ` is a program on the states `σ`, together with what the calls in it ask of the
states in which they are made: `run` is what it does, and `ok` says of a state it starts in
that every call on the way is made where it may be.  Programs are put together by `seq`,
`look`, which chooses by the state, and `each`, which runs over a list.

`Decides K B p`: from a state with `K` the program ends in one with `K` if every call is made
where it may be, and otherwise in one with `B`, which stays.  `Keeps` is the same of one
property.  Both follow the structure of the program.
-/

import Mathlib.Data.List.Basic

namespace Lfi
namespace Runs

/-- A program, and when its calls are made where they may be. -/
structure Checked (σ : Type*) where
  run : σ → σ
  ok : σ → Prop

namespace Checked

variable {σ α : Type*}

/-- A call that may always be made. -/
def act (f : σ → σ) : Checked σ := ⟨f, fun _ => True⟩

/-- Nothing. -/
def skip : Checked σ := act id

/-- One after the other. -/
def seq (p q : Checked σ) : Checked σ :=
  ⟨fun s => q.run (p.run s), fun s => p.ok s ∧ q.ok (p.run s)⟩

/-- What is done depends on the state. -/
def look (p : σ → Checked σ) : Checked σ := ⟨fun s => (p s).run s, fun s => (p s).ok s⟩

/-- The loop over a list. -/
def each (p : α → Checked σ) : List α → Checked σ
  | [] => skip
  | a :: as => (p a).seq (each p as)

/-- The reading of each construct. -/
@[simp] theorem act_run (f : σ → σ) (s : σ) : (act f).run s = f s := rfl

@[simp] theorem act_ok (f : σ → σ) (s : σ) : (act f).ok s := trivial

@[simp] theorem skip_run (s : σ) : (skip : Checked σ).run s = s := rfl

@[simp] theorem skip_ok (s : σ) : (skip : Checked σ).ok s := trivial

@[simp] theorem seq_run (p q : Checked σ) (s : σ) : (p.seq q).run s = q.run (p.run s) := rfl

@[simp] theorem seq_ok (p q : Checked σ) (s : σ) :
    (p.seq q).ok s ↔ p.ok s ∧ q.ok (p.run s) := Iff.rfl

@[simp] theorem look_run (p : σ → Checked σ) (s : σ) : (look p).run s = (p s).run s := rfl

@[simp] theorem look_ok (p : σ → Checked σ) (s : σ) : (look p).ok s ↔ (p s).ok s := Iff.rfl

/-- The loop is the fold. -/
theorem each_run (p : α → Checked σ) (as : List α) (s : σ) :
    (each p as).run s = as.foldl (fun s a => (p a).run s) s := by
  induction as generalizing s with
  | nil => rfl
  | cons a as ih => exact ih _

/-! ### What a program keeps -/

section Keeps

variable {P : σ → Prop} {p q : Checked σ}

/-- The program keeps `P`, wherever its calls are made. -/
def Keeps (P : σ → Prop) (p : Checked σ) : Prop := ∀ s, P s → P (p.run s)

/-- What the parts keep the whole keeps. -/
theorem Keeps.seq (hp : Keeps P p) (hq : Keeps P q) : Keeps P (p.seq q) :=
  fun s hs => hq _ (hp s hs)

end Keeps

/-! ### What its calls decide -/

section Decides

variable {K B : σ → Prop} {p q : Checked σ} {s : σ}

/-- From the state `s`: where `K` holds it goes on holding exactly if the calls are made where
they may be, and otherwise there is the failure `B`, which stays. -/
structure DecidesAt (K B : σ → Prop) (p : Checked σ) (s : σ) : Prop where
  good : K s → p.ok s → K (p.run s)
  bad : K s → ¬ p.ok s → B (p.run s)
  stays : B s → B (p.run s)

/-- From every state. -/
def Decides (K B : σ → Prop) (p : Checked σ) : Prop := ∀ s, DecidesAt K B p s

/-- It is enough to say where a program that may go wrong leads in either case. -/
theorem DecidesAt.of_or (h : K s → p.ok s ∧ K (p.run s) ∨ ¬ p.ok s ∧ B (p.run s))
    (hB : B s → B (p.run s)) : DecidesAt K B p s where
  good hK hok := (h hK).elim And.right fun hbad => absurd hok hbad.1
  bad hK hok := (h hK).elim (fun hgood => absurd hgood.1 hok) And.right
  stays := hB

/-- A step that asks nothing. -/
theorem DecidesAt.act {f : σ → σ} (hK : K s → K (f s)) (hB : B s → B (f s)) :
    DecidesAt K B (act f) s :=
  ⟨fun h _ => hK h, fun _ h => absurd trivial h, hB⟩

theorem decides_skip : Decides K B (skip : Checked σ) := fun _ => .act id id

/-- The second part is asked where the first has led. -/
theorem DecidesAt.seq (hp : DecidesAt K B p s) (hq : DecidesAt K B q (p.run s)) :
    DecidesAt K B (p.seq q) s where
  good hK h := hq.good (hp.good hK h.1) h.2
  bad hK h := by
    by_cases hok : p.ok s
    · exact hq.bad (hp.good hK hok) fun hq => h ⟨hok, hq⟩
    · exact hq.stays (hp.bad hK hok)
  stays hB := hq.stays (hp.stays hB)

theorem DecidesAt.look {p : σ → Checked σ} (h : DecidesAt K B (p s) s) :
    DecidesAt K B (look p) s := ⟨h.good, h.bad, h.stays⟩

theorem Decides.seq (hp : Decides K B p) (hq : Decides K B q) : Decides K B (p.seq q) :=
  fun s => (hp s).seq (hq _)

/-- The rule of the loop. -/
theorem Decides.each {p : α → Checked σ} {as : List α} (h : ∀ a ∈ as, Decides K B (p a)) :
    Decides K B (each p as) := by
  induction as with
  | nil => exact decides_skip
  | cons a as ih =>
      exact (h a List.mem_cons_self).seq (ih fun b hb => h b (List.mem_cons_of_mem _ hb))

/-- Where the failure is what should hold, the calls do not matter. -/
theorem Keeps.decides {P : σ → Prop} (h : Keeps P p) : Decides P P p := fun s =>
  ⟨fun hs _ => h s hs, fun hs _ => h s hs, h s⟩

/-- A program that decides between a property and itself keeps it. -/
theorem Decides.keeps {P : σ → Prop} (h : Decides P P p) : Keeps P p := fun s => (h s).stays

end Decides

end Checked
end Runs
end Lfi
