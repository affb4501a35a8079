import Protobuf.Proofs.Source.Phrases
import Protobuf.Proofs.Source.ReadingLaws

/-! Braces and the blocks that are passed over.

Tokens are balanced if every brace that is opened is closed and every brace that closes one closes
an earlier one. A block is passed over by counting the braces that are open. The count starts at
zero, so that what is passed over is a block only if a brace is opened first. If the first brace is
one that closes, it is the end, although it closes nothing. -/
namespace Protobuf.Phrase
open scoped Computability

/-- Where so many braces are open, the tokens close them and those that they open themselves, and no
others. -/
structure Closes (depth : Nat) (w : List Token) : Prop where
  front {u : List Token} (h : u <+: w) :
    u.count (.punct .rightBrace) ≤ u.count (.punct .leftBrace) + depth
  total : w.count (.punct .rightBrace) = w.count (.punct .leftBrace) + depth

/-- Every brace that closes one closes an earlier one, and all that are opened are closed. -/
def Balanced (w : List Token) : Prop :=
  (∀ u, u <+: w → u.count (.punct .rightBrace) ≤ u.count (.punct .leftBrace)) ∧
    w.count (.punct .rightBrace) = w.count (.punct .leftBrace)

theorem balanced_iff_closes {w : List Token} : Balanced w ↔ Closes 0 w :=
  ⟨fun h => ⟨fun hu => h.1 _ hu, h.2⟩, fun h => ⟨fun _ hu => h.front hu, h.total⟩⟩

theorem closes_nil : Closes 0 [] where
  front h := by rw [List.prefix_nil.mp h]; exact Nat.le.refl
  total := rfl

theorem Closes.append {depth : Nat} {v w : List Token} (hv : Closes 0 v) (hw : Closes depth w) :
    Closes depth (v ++ w) where
  front {u} h := by
    have htotal := hv.total
    rcases List.prefix_or_prefix_of_prefix h (List.prefix_append v w) with hu | ⟨u, rfl⟩
    · have := hv.front hu
      omega
    · have := hw.front ((List.prefix_append_right_inj v).mp h)
      simp only [List.count_append]
      omega
  total := by
    have hv := hv.total
    have hw := hw.total
    simp only [List.count_append]
    omega

theorem Closes.cons {depth next : Nat} {t : Token} {w : List Token} (h : Closes next w)
    (ht : [t].count (.punct .rightBrace) + next = [t].count (.punct .leftBrace) + depth) :
    Closes depth (t :: w) where
  front {u} hu := by
    rcases List.prefix_cons_iff.mp hu with rfl | ⟨u, rfl, hfront⟩
    · exact Nat.zero_le _
    · have hfront := h.front hfront
      rw [← List.singleton_append, List.count_append, List.count_append]
      omega
  total := by
    have htotal := h.total
    rw [← List.singleton_append, List.count_append, List.count_append]
    omega

theorem Closes.leftBrace {depth : Nat} {w : List Token} (h : Closes (depth + 1) w) :
    Closes depth (.punct .leftBrace :: w) :=
  h.cons (by simp [Nat.add_comm])

theorem Closes.rightBrace {depth : Nat} {w : List Token} (h : Closes depth w) :
    Closes (depth + 1) (.punct .rightBrace :: w) :=
  h.cons (by simp [Nat.add_comm])

/-- Tokens without braces. -/
def plain : Language Token :=
  {w | .punct .leftBrace ∉ w ∧ .punct .rightBrace ∉ w}

theorem nil_mem_plain : [] ∈ plain :=
  ⟨List.not_mem_nil, List.not_mem_nil⟩

theorem append_mem_plain {v w : List Token} (hv : v ∈ plain) (hw : w ∈ plain) :
    v ++ w ∈ plain :=
  ⟨List.not_mem_append hv.1 hw.1, List.not_mem_append hv.2 hw.2⟩

theorem closes_of_mem_plain {w : List Token} (h : w ∈ plain) : Closes 0 w where
  front {u} hu := by
    rw [List.count_eq_zero.mpr fun hmem => h.2 (hu.mem hmem)]
    exact Nat.zero_le _
  total := by
    rw [List.count_eq_zero.mpr h.1, List.count_eq_zero.mpr h.2]

/-- The rest of a block, from its first token on. -/
def inside : Language Token :=
  {w | Closes 1 w}

/-- A block, and what stands before it. -/
def opened : Language Token :=
  plain * (sign .leftBrace * inside)

/-- What is passed over where no block is opened before a brace that closes one. -/
def unopened : Language Token :=
  plain * sign .rightBrace

/-- A service, which is a name and a block of this kind. -/
def service (block : Language Token) : Language Token :=
  keyword "service" * (ident * block)

end Protobuf.Phrase

namespace Protobuf.Parser
open Phrase
open scoped Computability

/-- The rounds of passing over a block, inside so many braces. -/
def blockTurns (depth : Nat) : Turn Nat Unit → Language Token
  | .again next => {w | w = [.punct .leftBrace] ∧ next = depth + 1 ∨
      w = [.punct .rightBrace] ∧ 0 < next ∧ depth = next + 1 ∨
        w ∈ plain ∧ w ∈ anyToken ∧ next = depth}
  | .done _ => {w | w = [.punct .rightBrace] ∧ depth ≤ 1}

theorem reads_blockRound (depth : Nat) : Reads (blockTurns depth) (blockRound depth) := by
  intro c
  refine .peek ?_
  split
  · exact readsAt_advance_pure ‹_› (.inl ⟨rfl, rfl⟩)
  · refine readsAt_advance_pure ‹_› ?_
    split
    · exact ⟨rfl, ‹_›⟩
    · exact .inr (.inl ⟨rfl, by omega, by omega⟩)
  · rename_i w hleft hright hw
    obtain ⟨token, span⟩ := w
    refine readsAt_advance_pure hw (.inr (.inr ⟨⟨?_, ?_⟩, ⟨_, rfl⟩, rfl⟩))
    · intro hmem
      exact hleft span (by rw [List.mem_singleton.mp hmem])
    · intro hmem
      exact hright span (by rw [List.mem_singleton.mp hmem])
  · exact reads_unexpected _ _

theorem nil_notMem_blockTurns (depth next : Nat) : [] ∉ blockTurns depth (.again next) := by
  intro h
  rcases h with ⟨h, _⟩ | ⟨h, _⟩ | ⟨_, h, _⟩
  · cases h
  · cases h
  · exact nil_notMem_anyToken h

/-- Inside of a block its end is found. -/
theorem closes_of_blockTurns {depth : Nat} {w : List Token} {u : Unit}
    (h : Rounds blockTurns depth w u) (hdepth : 0 < depth) : Closes depth w := by
  induction h with
  | @done depth _ w hw =>
    obtain ⟨rfl, hle⟩ := hw
    obtain rfl : depth = 0 + 1 := by omega
    exact closes_nil.rightBrace
  | @again depth next _ w v hw _ ih =>
    rcases hw with ⟨rfl, rfl⟩ | ⟨rfl, hnext, rfl⟩ | ⟨hplain, _, rfl⟩
    · exact (ih (Nat.succ_pos depth)).leftBrace
    · exact (ih hnext).rightBrace
    · exact (closes_of_mem_plain hplain).append (ih hdepth)

/-- Before a block is entered there are no braces. The first one enters it, unless it is the end of
what is passed over. -/
theorem mem_of_blockTurns {depth : Nat} {w : List Token} {u : Unit}
    (h : Rounds blockTurns depth w u) (hdepth : depth = 0) :
    w ∈ plain * (Phrase.sign .leftBrace * inside + Phrase.sign .rightBrace) := by
  induction h with
  | @done depth _ w hw =>
    obtain ⟨rfl, _⟩ := hw
    exact Language.append_mem_mul nil_mem_plain (.inr rfl)
  | @again depth next _ w v hw hrounds ih =>
    rcases hw with ⟨rfl, rfl⟩ | ⟨rfl, _, hnext⟩ | ⟨hplain, _, rfl⟩
    · have hinside : v ∈ inside := by
        subst hdepth
        exact closes_of_blockTurns hrounds Nat.one_pos
      have hblock : [.punct .leftBrace] ++ v ∈ Phrase.sign .leftBrace * inside :=
        Language.append_mem_mul (Set.mem_singleton _) hinside
      rw [← List.nil_append (_ ++ v)]
      exact Language.append_mem_mul nil_mem_plain (.inl hblock)
    · omega
    · obtain ⟨front, hfront, rest, hrest, rfl⟩ := Language.mem_mul.mp (ih hdepth)
      rw [← List.append_assoc]
      exact Language.append_mem_mul (append_mem_plain hplain hfront) hrest

theorem reads_skipBlock : Reads (fun _ => opened + unopened) skipBlock := by
  refine (Reads.loop reads_blockRound nil_notMem_blockTurns 0).mono fun _ w hw => ?_
  rw [opened, unopened, ← mul_add]
  exact mem_of_blockTurns hw rfl

end Protobuf.Parser
