import ExactCalculator.Proofs.Journal.PopOrder

/-!
# The converter pops the operators that are to be popped

The converter keeps the operators that wait in one group for each open parenthesis. A group holds
exactly the operators that wait inside its parenthesis, and none of them precedes one above it, so
those that a new operator pops are on top (`Converter.Accounts.split_group`). The converter
therefore accounts for exactly the operators that are popped before the first fault, in the order in
which they are written (`exists_isPopOrder`).
-/

namespace ExactCalculator

open Conversion

/-! ## Popping from a stack -/

/-- Whatever precedes an operator is preceded, where it waits, by operators that precede it too. -/
theorem Operator.precedes_of_not_precedes {below above next : Operator}
    (h : below.precedes above = false) (hnext : below.precedes next = true) :
    above.precedes next = true := by
  cases next with
  | sign s => simp [Converter.precedes_sign] at hnext
  | binary next =>
    rw [Converter.precedes_binary] at hnext ⊢
    cases above with
    | sign s => cases next <;> simp [Operator.precedence]
    | binary above =>
      rw [← Bool.not_eq_true, Converter.precedes_binary] at h
      omega

/-- From a list on whose front the property is met wherever it is met at all, the front is taken. -/
theorem takeWhile_eq_filter {α : Type} {p : α → Bool} {xs : List α}
    (h : xs.Pairwise fun x y => p y = true → p x = true) :
    xs.takeWhile p = xs.filter p ∧ xs.dropWhile p = xs.filter fun x => !p x := by
  induction xs with
  | nil => exact ⟨rfl, rfl⟩
  | cons x xs ih =>
    obtain ⟨hx, hxs⟩ := List.pairwise_cons.1 h
    cases hp : p x with
    | true => simp [hp, ih hxs]
    | false =>
      have hnone : ∀ y ∈ xs, p y = false := by
        intro y hy
        by_contra hpy
        rw [hx y hy (by simpa using hpy)] at hp
        cases hp
      have hempty : xs.filter p = [] := by simpa using hnone
      have hall : xs.filter (fun x => !p x) = xs := by simpa using hnone
      simp [hp, hempty, hall]

/-! ## The converter's account -/

/-- Writes operators with their places, the first of the list first. -/
def writePlaced (written : List (Token × ℕ)) (released : List (Operator × ℕ)) :
    List (Token × ℕ) :=
  (released.map operatorToken).reverse ++ written

theorem map_fst_writePlaced (written : List (Token × ℕ)) (released : List (Operator × ℕ)) :
    (writePlaced written released).map Prod.fst =
      Converter.write (written.map Prod.fst) (released.map Prod.fst) := by
  rw [writePlaced, List.map_append, List.map_reverse, List.map_map, Converter.write, List.map_map]
  rfl

theorem Conversion.Arranged.writePlaced {before : List Token} {written : List (Token × ℕ)}
    {released kept : List (Operator × ℕ)}
    (h : Arranged before written ((released ++ kept).map operatorToken)) :
    Arranged before (writePlaced written released) (kept.map operatorToken) := by
  rw [List.map_append] at h
  refine h.write fun x hx => ?_
  obtain ⟨y, -, rfl⟩ := List.mem_map.1 hx
  rfl

namespace Converter

/-- What the converter has written, holds and has popped, the latest first, with the places. A group
is the operators inside one of the open parentheses, the innermost first. -/
structure Accounts (c : Converter) (before : List Token) (written : List (Token × ℕ))
    (groups : List (List (Operator × ℕ))) (pops : List Pop) : Prop where
  output : written.map Prod.fst = c.output
  held : groups.map (List.map Prod.fst) = c.waiting :: c.enclosing
  popped : pops.map Pop.op = c.popped
  arranged : Arranged before written (groups.flatten.map operatorToken)
  mem_group : ∀ d group, groups[d]? = some group → ∀ x, x ∈ group ↔ Waits before d x
  group_order : ∀ group ∈ groups,
    group.Pairwise fun x y => y.2 < x.2 ∧ y.1.precedes x.1 = false
  mem_pops : ∀ x, x ∈ pops ↔ x.Occurs before
  pops_order : pops.Pairwise fun x y =>
    y.popper < x.popper ∨ (y.popper = x.popper ∧ x.place < y.place)
  pops_written : (pops.map Pop.token).Sublist written

theorem accounts_start : start.Accounts [] [] [[]] [] := by
  refine ⟨rfl, rfl, rfl, .nil, ?_, ?_, ?_, .nil, .slnil⟩
  · intro d group hgroup x
    obtain ⟨-, rfl⟩ : d = 0 ∧ [] = group := by
      cases d <;> simp_all
    simp only [List.not_mem_nil, false_iff]
    intro hwaits
    exact absurd hwaits.operator.lt_length (Nat.not_lt_zero _)
  · simp
  · intro x
    simp only [List.not_mem_nil, false_iff]
    rintro ⟨hop, -⟩
    exact absurd hop.lt_length (Nat.not_lt_zero _)

variable {c next : Converter} {before : List Token} {token : Token}
  {written : List (Token × ℕ)} {groups : List (List (Operator × ℕ))} {pops : List Pop}

theorem Accounts.number (h : c.Accounts before written groups pops) (literal : String) :
    Accounts { c with output := .number literal :: c.output, position := .afterNumber }
      (before ++ [.number literal]) ((.number literal, before.length) :: written) groups pops where
  output := by rw [List.map_cons, h.output]
  held := h.held
  popped := h.popped
  arranged := h.arranged.number literal
  mem_group d group hgroup x := by rw [waits_append_number, h.mem_group d group hgroup]
  group_order := h.group_order
  mem_pops x := by rw [h.mem_pops, occurs_append_of_ne fun op h => by cases h]
  pops_order := h.pops_order
  pops_written := h.pops_written.cons _

theorem Accounts.opening (h : c.Accounts before written groups pops) :
    Accounts { c with waiting := [], enclosing := c.waiting :: c.enclosing,
                      position := .afterOpening }
      (before ++ [.opening]) written ([] :: groups) pops where
  output := h.output
  held := by rw [List.map_cons, h.held, List.map_nil]
  popped := h.popped
  arranged := h.arranged.parenthesis rfl
  mem_group d group hgroup x := by
    rw [waits_append_opening]
    cases d with
    | zero =>
      obtain rfl : [] = group := Option.some.inj hgroup
      simp
    | succ d =>
      rw [h.mem_group d group hgroup]
      simp
  group_order := by
    intro group hgroup
    rcases List.mem_cons.1 hgroup with rfl | hgroup
    · exact .nil
    · exact h.group_order group hgroup
  mem_pops x := by rw [h.mem_pops, occurs_append_of_ne fun op h => by cases h]
  pops_order := h.pops_order
  pops_written := h.pops_written

/-- A closing parenthesis releases its group, but pops nothing. -/
theorem Accounts.closing {group : List (Operator × ℕ)} {outer : List Operator}
    {enclosing : List (List Operator)}
    (h : c.Accounts before written (group :: groups) pops)
    (henclosing : c.enclosing = outer :: enclosing) :
    Accounts { c with output := write c.output c.waiting, waiting := outer, enclosing := enclosing,
                      position := .afterClosing }
      (before ++ [.closing]) (writePlaced written group) groups pops where
  output := by
    obtain ⟨hwaiting, -⟩ := List.cons.inj h.held
    rw [map_fst_writePlaced, h.output, hwaiting]
  held := by
    obtain ⟨-, hgroups⟩ := List.cons.inj h.held
    rw [hgroups, henclosing]
  popped := h.popped
  arranged := h.arranged.writePlaced.parenthesis rfl
  mem_group d group hgroup x := by
    rw [waits_append_closing, h.mem_group (d + 1) group hgroup]
  group_order group hgroup := h.group_order group (List.mem_cons_of_mem _ hgroup)
  mem_pops x := by rw [h.mem_pops, occurs_append_of_ne fun op h => by cases h]
  pops_order := h.pops_order
  pops_written := h.pops_written.trans (List.sublist_append_right _ _)

section

variable {group : List (Operator × ℕ)} {op : Operator}

/-- Of the operators of a group those that precede a new one are on top. -/
theorem Accounts.split_group (h : c.Accounts before written (group :: groups) pops)
    (op : Operator) :
    group.takeWhile (fun x => x.1.precedes op) = group.filter (fun x => x.1.precedes op) ∧
      group.dropWhile (fun x => x.1.precedes op) = group.filter fun x => !x.1.precedes op := by
  refine takeWhile_eq_filter ((h.group_order group List.mem_cons_self).imp ?_)
  intro x y hxy
  exact Operator.precedes_of_not_precedes hxy.2

/-- A new operator pops those of its group that precede it. -/
theorem Accounts.operator {read : Operator}
    (h : c.Accounts before written (group :: groups) pops)
    (hread : reading before (.operator read) = .operator op) :
    Accounts (c.pushOperator op) (before ++ [.operator read])
      (writePlaced written (group.filter fun x => x.1.precedes op))
      (((op, before.length) :: group.filter fun x => !x.1.precedes op) :: groups)
      (((group.filter fun x => x.1.precedes op).map fun x => ⟨x.1, x.2, before.length⟩).reverse ++
        pops) := by
  obtain ⟨hwaiting, hgroups⟩ := List.cons.inj h.held
  -- From the top all operators of the group are taken that precede the new one, not only some.
  obtain ⟨htop, hrest⟩ := h.split_group op
  have hreleased : c.waiting.takeWhile (·.precedes op) =
      (group.filter fun x => x.1.precedes op).map Prod.fst := by
    rw [← hwaiting, List.takeWhile_map, ← htop]
    rfl
  have hkept : c.waiting.dropWhile (·.precedes op) =
      (group.filter fun x => !x.1.precedes op).map Prod.fst := by
    rw [← hwaiting, List.dropWhile_map, ← hrest]
    rfl
  have hsplit : group = (group.filter fun x => x.1.precedes op) ++
      group.filter fun x => !x.1.precedes op := by
    rw [← htop, ← hrest, List.takeWhile_append_dropWhile]
  constructor
  case output =>
    rw [map_fst_writePlaced, h.output, ← hreleased]
    rfl
  case held =>
    rw [List.map_cons, List.map_cons, hgroups, pushOperator, hkept]
  case popped =>
    rw [List.map_append, List.map_reverse, List.map_map, h.popped, pushOperator, hreleased]
    rfl
  case arranged =>
    have harranged := h.arranged
    rw [List.flatten_cons, hsplit, List.append_assoc] at harranged
    have hnew := harranged.writePlaced.operator read
    rwa [hread] at hnew
  case mem_group =>
    intro d held hheld x
    rw [waits_append_operator hread]
    cases d with
    | zero =>
      obtain rfl := Option.some.inj hheld
      simp [h.mem_group 0 group rfl]
    | succ d => simp [h.mem_group (d + 1) held hheld]
  case group_order =>
    intro held hheld
    rcases List.mem_cons.1 hheld with rfl | hheld
    · refine List.pairwise_cons.2 ⟨?_, (h.group_order group List.mem_cons_self).filter _⟩
      intro x hx
      obtain ⟨hx, hprecedes⟩ := List.mem_filter.1 hx
      exact ⟨((h.mem_group 0 group rfl x).1 hx).operator.lt_length, by simpa using hprecedes⟩
    · exact h.group_order held (List.mem_cons_of_mem _ hheld)
  case mem_pops =>
    intro x
    rw [occurs_append, List.mem_append, h.mem_pops, or_comm, List.mem_reverse, List.mem_map]
    refine or_congr_right ?_
    constructor
    · rintro ⟨y, hy, rfl⟩
      obtain ⟨hy, hprecedes⟩ := List.mem_filter.1 hy
      exact ⟨rfl, (h.mem_group 0 group rfl y).1 hy, op, hread, hprecedes⟩
    · rintro ⟨hpopper, hwaits, next, hnext, hprecedes⟩
      obtain rfl : op = next := Token.operator.inj (hread.symm.trans hnext)
      refine ⟨(x.op, x.place), List.mem_filter.2 ⟨?_, hprecedes⟩, by rw [← hpopper]⟩
      exact (h.mem_group 0 group rfl _).2 hwaits
  case pops_order =>
    refine List.pairwise_append.2 ⟨?_, h.pops_order, ?_⟩
    · rw [List.pairwise_reverse, List.pairwise_map]
      refine ((h.group_order group List.mem_cons_self).filter _).imp ?_
      intro x y hxy
      exact Or.inr ⟨rfl, hxy.1⟩
    · intro x hx y hy
      obtain ⟨z, -, rfl⟩ := List.mem_map.1 (List.mem_reverse.1 hx)
      exact Or.inl ((h.mem_pops y).1 hy).2.applied.lt_length
  case pops_written =>
    rw [List.map_append, List.map_reverse, List.map_map]
    exact (List.Sublist.refl _).append h.pops_written

end

theorem Accounts.exists_group (h : c.Accounts before written groups pops) :
    ∃ group outer, groups = group :: outer := by
  cases groups with
  | nil => cases h.held
  | cons group outer => exact ⟨group, outer, rfl⟩

theorem Accounts.push (h : c.Accounts before written groups pops) (htracks : c.Tracks before)
    (hpush : c.push token = .ok next) :
    ∃ written groups pops, next.Accounts (before ++ [token]) written groups pops := by
  obtain ⟨group, outer, rfl⟩ := h.exists_group
  rcases push_ok_iff.1 hpush with ⟨literal, rfl, rfl⟩ | ⟨rfl, rfl⟩ |
    ⟨waiting, enclosing, rfl, henclosing, rfl⟩ | ⟨read, op, rfl, hop, rfl⟩
  · exact ⟨_, _, _, h.number literal⟩
  · exact ⟨_, _, _, h.opening⟩
  · exact ⟨_, _, _, h.closing henclosing⟩
  · exact ⟨_, _, _, h.operator (htracks.reading_operator hop)⟩

/-- The tokens that are read end before the first fault, or are all tokens. -/
theorem Accounts.run (h : c.Accounts before written groups pops) (htracks : c.Tracks before)
    (hfaultless : Faultless before) (tokens : List Token) :
    ∃ done rest last written groups pops, done ++ rest = before ++ tokens ∧ Faultless done ∧
      Accounts last done written groups pops ∧ (c.run tokens).popped = last.popped.reverse ∧
      ((rest = [] ∧ (c.run tokens).verdict = last.finish) ∨
        ∃ token err, rest.head? = some token ∧ Fault done token err ∧
          (c.run tokens).verdict = .error err) := by
  -- On the tokens still to be read: as none before them is at fault, the first fault is where the
  -- run stops.
  induction tokens generalizing c before written groups pops with
  | nil => exact ⟨before, [], c, _, _, _, rfl, hfaultless, h, rfl, Or.inl ⟨rfl, rfl⟩⟩
  | cons token tokens ih =>
    cases hpush : c.push token with
    | ok next =>
      obtain ⟨written, groups, pops, hnext⟩ := h.push htracks hpush
      have hfaultless' : Faultless (before ++ [token]) := by
        refine hfaultless.append fun err hfault => ?_
        rw [htracks.push_error_iff.2 hfault] at hpush
        cases hpush
      have hrun := ih hnext (htracks.push hpush) hfaultless'
      rwa [List.append_assoc, List.singleton_append, ← run_cons_ok hpush] at hrun
    | error err =>
      refine ⟨before, token :: tokens, c, _, _, _, rfl, hfaultless, h, ?_,
        Or.inr ⟨token, err, rfl, htracks.push_error_iff.1 hpush, ?_⟩⟩
      · rw [Converter.run, hpush]
      · rw [Converter.run, hpush]

/-- At the end the operators of the one group that is left are written. -/
theorem Accounts.exists_isOrderOf {rpn : List Token} (h : c.Accounts before written groups pops)
    (hfinish : c.finish = .ok rpn) :
    ∃ placed, IsOrderOf placed before rpn ∧ (pops.reverse.map Pop.token).Sublist placed := by
  obtain ⟨-, henclosing, rfl⟩ := finish_ok_iff.1 hfinish
  obtain ⟨group, outer, rfl⟩ := h.exists_group
  obtain ⟨hwaiting, houter⟩ := List.cons.inj h.held
  rw [henclosing, List.map_eq_nil_iff] at houter
  have harranged := h.arranged
  rw [houter] at harranged
  have horder := harranged.writePlaced.isOrderOf
  rw [map_fst_writePlaced, h.output, hwaiting] at horder
  refine ⟨_, horder, ?_⟩
  rw [List.map_reverse]
  exact (h.pops_written.trans (List.sublist_append_right _ _)).reverse

end Converter

/-! ## The conversion -/

theorem isPopOrder_of_accounts {done rest : List Token} {last : Converter}
    {written : List (Token × ℕ)} {groups : List (List (Operator × ℕ))} {pops : List Pop}
    (h : last.Accounts done written groups pops) (hfaultless : Faultless done)
    (hrest : rest = [] ∨ ∃ token err, rest.head? = some token ∧ Fault done token err) :
    IsPopOrder (done ++ rest) pops.reverse := by
  refine ⟨fun x => ?_, List.pairwise_reverse.2 ?_⟩
  · rw [List.mem_reverse, h.mem_pops]
    constructor
    · intro hx
      have hlt := hx.2.applied.lt_length
      refine ⟨(occurs_append_of_lt hlt).2 hx, fun i hi err hfault => ?_⟩
      exact hfaultless i err ((faultAt_append_of_lt (by omega)).1 hfault)
    · rintro ⟨hx, hfaults⟩
      refine (occurs_append_of_lt ?_).1 hx
      by_contra hge
      rcases hrest with rfl | ⟨token, err, htoken, hfault⟩
      · rw [List.append_nil] at hx
        exact hge hx.2.applied.lt_length
      · exact hfaults _ (not_lt.1 hge) err (faultAt_length.2 ⟨token, htoken, hfault⟩)
  · refine h.pops_order.imp ?_
    rintro x y (hlt | ⟨heq, hlt⟩)
    · exact Or.inl hlt
    · exact Or.inr ⟨heq, hlt⟩

/-- The converter pops the operators that are to be popped, in their order, whether it converts the
tokens or fails. If it converts them, this is the order in which they are written. -/
theorem exists_isPopOrder (tokens : List Token) :
    ∃ pops, IsPopOrder tokens pops ∧ (convert tokens).popped = pops.map Pop.op ∧
      ∀ rpn, toRpn tokens = .ok rpn →
        ∃ placed, IsOrderOf placed tokens rpn ∧ (pops.map Pop.token).Sublist placed := by
  by_cases hne : tokens = []
  · subst hne
    refine ⟨[], ⟨fun x => ?_, .nil⟩, rfl, fun rpn h => by cases h⟩
    simp only [List.not_mem_nil, false_iff]
    rintro ⟨⟨hop, -⟩, -⟩
    exact absurd hop.lt_length (Nat.not_lt_zero _)
  obtain ⟨done, rest, last, written, groups, pops, htokens, hfaultless, haccounts, hpopped, hend⟩ :=
    Converter.accounts_start.run Converter.tracks_start
      (fun i err h => by obtain ⟨token, htoken, -⟩ := h; simp at htoken) tokens
  rw [List.nil_append] at htokens
  refine ⟨pops.reverse, ?_, ?_, ?_⟩
  · rw [← htokens]
    refine isPopOrder_of_accounts haccounts hfaultless (hend.imp And.left ?_)
    rintro ⟨token, err, htoken, hfault, -⟩
    exact ⟨token, err, htoken, hfault⟩
  · rw [convert_eq_run hne, hpopped, ← haccounts.popped, List.map_reverse]
  · intro rpn hrpn
    rw [toRpn, convert_eq_run hne] at hrpn
    obtain ⟨rfl, hfinish⟩ : rest = [] ∧ last.finish = .ok rpn := by
      rcases hend with ⟨hrest, hfinish⟩ | ⟨token, err, -, -, herror⟩
      · exact ⟨hrest, by rw [← hfinish, hrpn]⟩
      · rw [hrpn] at herror
        cases herror
    rw [List.append_nil] at htokens
    rw [← htokens]
    exact haccounts.exists_isOrderOf hfinish

end ExactCalculator
