import CallContract.Json.Reader
import CallContract.Proofs.WholeReadings
import Mathlib.Tactic.SplitIfs

/-!
# Steps of the reader

What the reader makes of a text, one value, one item or one member at a time, without the bounds
that carry its recursion.  Whatever comes out whole fits into the room that there was for it.
-/

namespace CallContract.Json

/-! ## 1. Values -/

theorem skip_of_not_blank {c : Char} {rest : List Char} (h : isBlank c = false) :
    skip (c :: rest) = c :: rest := by
  rw [skip, List.dropWhile_cons, h]
  rfl

/-- What was read and what is left, without the bound on what is left. -/
def Taken.parts {α : Type} {cs : List Char} (t : Taken α cs) : α × List Char := (t.result, t.rest)

theorem parts_readValue_nil {room : Nat} {cs : List Char} (hskip : skip cs = []) :
    (readValue room cs).parts = (.broken ⟨.endInValue, .here []⟩, []) := by
  rw [readValue]
  split
  · rfl
  · rename_i hcons
    rw [hskip] at hcons
    cases hcons

/-- The reading of a value that begins with the character `c`. -/
theorem parts_readValue {room : Nat} {cs rest : List Char} {c : Char}
    (hskip : skip cs = c :: rest) : (readValue room cs).parts =
      if c = '"' then
        match stringLiteral rest with
        | .ok (s, left) => (.string (String.ofList s) (.here left), left)
        | .error f => (.broken f, [])
      else if c = '[' then
        match room with
        | 0 => (.broken ⟨.tooDeep, .past (c :: rest)⟩, [])
        | room + 1 =>
          let t := readItems room true rest
          (.array (.here (c :: rest)) t.result.1 t.result.2, t.rest)
      else if c = '\x7b' then
        match room with
        | 0 => (.broken ⟨.tooDeep, .past (c :: rest)⟩, [])
        | room + 1 =>
          let t := readMembers room true rest
          (.object (.here (c :: rest)) t.result.1 t.result.2, t.rest)
      else if c = 'n' then
        match word ['u', 'l', 'l'] rest with
        | .ok left => (.null (.here left), left)
        | .error f => (.broken f, [])
      else if c = 't' then
        match word ['r', 'u', 'e'] rest with
        | .ok left => (.boolean true (.here left), left)
        | .error f => (.broken f, [])
      else if c = 'f' then
        match word ['a', 'l', 's', 'e'] rest with
        | .ok left => (.boolean false (.here left), left)
        | .error f => (.broken f, [])
      else if c = '-' || c.isDigit then
        match numberLiteral (c :: rest) with
        | .ok (n, left) => (.number n (.here left), left)
        | .error f => (.broken f, [])
      else (.broken ⟨.noValue, .past (c :: rest)⟩, []) := by
  rw [readValue]
  split
  · rename_i hnil
    rw [hskip] at hnil
    cases hnil
  rename_i hcons
  rw [hskip] at hcons
  cases hcons
  dsimp only
  split_ifs
  · split <;> rename_i h <;> simp only [h] <;> rfl
  · cases room <;> rfl
  · cases room <;> rfl
  · split <;> rename_i h <;> simp only [h] <;> rfl
  · split <;> rename_i h <;> simp only [h] <;> rfl
  · split <;> rename_i h <;> simp only [h] <;> rfl
  · split <;> rename_i h <;> simp only [h] <;> rfl
  · rfl

theorem parts_readValue_bracket (room : Nat) (cs : List Char) :
    (readValue (room + 1) ('[' :: cs)).parts =
      (.array (.here ('[' :: cs)) (readItems room true cs).result.1
        (readItems room true cs).result.2, (readItems room true cs).rest) := by
  rw [parts_readValue (skip_of_not_blank rfl), if_neg (by decide), if_pos rfl]

theorem parts_readValue_brace (room : Nat) (cs : List Char) :
    (readValue (room + 1) ('\x7b' :: cs)).parts =
      (.object (.here ('\x7b' :: cs)) (readMembers room true cs).result.1
        (readMembers room true cs).result.2, (readMembers room true cs).rest) := by
  rw [parts_readValue (skip_of_not_blank rfl), if_neg (by decide), if_neg (by decide), if_pos rfl]

/-- No bracket opens where there is no room. -/
theorem result_readValue_zero {c : Char} {cs : List Char} (hc : c = '[' ∨ c = '\x7b') :
    (readValue 0 (c :: cs)).result = .broken ⟨.tooDeep, .past (c :: cs)⟩ := by
  show (readValue 0 (c :: cs)).parts.1 = _
  obtain rfl | rfl := hc
  · rw [parts_readValue (skip_of_not_blank rfl), if_neg (by decide), if_pos rfl]
  · rw [parts_readValue (skip_of_not_blank rfl), if_neg (by decide), if_neg (by decide), if_pos rfl]

/-! ## 2. Items and members -/

/-- The reading of items from a bracket or a comma on. -/
theorem parts_readItems (room : Nat) (first : Bool) (cs : List Char) :
    (readItems room first cs).parts =
      match skip cs with
      | [] => (([], cutOff (if first then .endInArray else .endInValue) (.here [])), [])
      | ']' :: rest =>
        if first then (([], .closed (.here rest)), rest)
        else (([], cutOff .commaAtEnd (.past (']' :: rest))), [])
      | _ :: _ =>
        let item := readValue room cs
        match skip item.rest with
        | [] => (([item.result], cutOff .endInArray (.here [])), [])
        | ']' :: rest => (([item.result], .closed (.here rest)), rest)
        | ',' :: rest =>
          let more := readItems room false rest
          ((item.result :: more.result.1, more.result.2), more.rest)
        | c :: rest => (([item.result], cutOff .noCommaInArray (.past (c :: rest))), []) := by
  rw [readItems]
  split
  · rename_i hskip _
    simp only [hskip]
    rfl
  · rename_i hskip _
    simp only [hskip]
    cases first <;> rfl
  · rename_i hskip _
    simp only [hskip]
    split <;> rename_i hrest _ <;> simp only [hrest] <;> rfl

/-- The reading of members from a bracket or a comma on. -/
theorem parts_readMembers (room : Nat) (first : Bool) (cs : List Char) :
    (readMembers room first cs).parts =
      match skip cs with
      | [] => (([], cutOff (if first then .endInObject else .endInValue) (.here [])), [])
      | '\x7d' :: rest =>
        if first then (([], .closed (.here rest)), rest)
        else (([], cutOff .commaAtEnd (.past ('\x7d' :: rest))), [])
      | '"' :: literal =>
        match stringLiteral literal with
        | .error f => (([], .cut f), [])
        | .ok (s, afterLiteral) =>
          let name := String.ofList s
          let mark := afterName afterLiteral
          match skip afterLiteral with
          | [] => (([(name, mark, .broken ⟨.endInObject, .here []⟩)],
              cutOff .endInObject (.here [])), [])
          | ':' :: afterColon =>
            let item := readValue room afterColon
            match skip item.rest with
            | [] => (([(name, mark, item.result)], cutOff .endInObject (.here [])), [])
            | '\x7d' :: rest => (([(name, mark, item.result)], .closed (.here rest)), rest)
            | ',' :: rest =>
              let more := readMembers room false rest
              (((name, mark, item.result) :: more.result.1, more.result.2), more.rest)
            | c :: rest =>
              (([(name, mark, item.result)], cutOff .noCommaInObject (.past (c :: rest))), [])
          | c :: rest => (([(name, mark, .broken ⟨.noColon, .past (c :: rest)⟩)],
              cutOff .noColon (.past (c :: rest))), [])
      | c :: rest => (([], cutOff .nameNotString (.past (c :: rest))), []) := by
  rw [readMembers]
  split
  · rename_i hskip _
    simp only [hskip]
    rfl
  · rename_i hskip _
    simp only [hskip]
    cases first <;> rfl
  · rename_i hskip _
    simp only [hskip]
    split
    · rename_i hliteral
      simp only [hliteral]
      rfl
    · rename_i hliteral
      simp only [hliteral]
      split
      · rename_i hcolon _
        simp only [hcolon]
        rfl
      · rename_i hcolon _
        simp only [hcolon]
        split <;> rename_i hrest _ <;> simp only [hrest] <;> rfl
      · rename_i hcolon _
        simp only [hcolon]
        rfl
  · rename_i hskip _
    simp only [hskip]
    rfl

/-- Behind a bracket or a comma there is something other than a closing bracket. -/
def BeginsItem (cs : List Char) : Prop := ∃ c tail, skip cs = c :: tail ∧ c ≠ ']'

theorem parts_readItems_last {room : Nat} {cs rest : List Char} (first : Bool)
    (hcs : BeginsItem cs) (hrest : (readValue room cs).rest = ']' :: rest) :
    (readItems room first cs).parts =
      (([(readValue room cs).result], .closed (.here rest)), rest) := by
  obtain ⟨c, tail, hskip, hc⟩ := hcs
  have hclose : skip (']' :: rest) = ']' :: rest := skip_of_not_blank rfl
  rw [parts_readItems, hskip]
  simp only [hrest, hclose]

theorem parts_readItems_more {room : Nat} {cs rest : List Char} (first : Bool)
    (hcs : BeginsItem cs) (hrest : (readValue room cs).rest = ',' :: rest) :
    (readItems room first cs).parts =
      (((readValue room cs).result :: (readItems room false rest).result.1,
        (readItems room false rest).result.2), (readItems room false rest).rest) := by
  obtain ⟨c, tail, hskip, hc⟩ := hcs
  have hcomma : skip (',' :: rest) = ',' :: rest := skip_of_not_blank rfl
  rw [parts_readItems, hskip]
  simp only [hrest, hcomma]

/-- Whatever follows, the first item is read as a value of its own. -/
theorem exists_readItems_eq_cons (room : Nat) (first : Bool) {cs : List Char}
    (hcs : BeginsItem cs) :
    ∃ rs, (readItems room first cs).result.1 = (readValue room cs).result :: rs := by
  obtain ⟨c, tail, hskip, hc⟩ := hcs
  have h := parts_readItems room first cs
  simp only [hskip] at h
  rw [show (readItems room first cs).result.1 = (readItems room first cs).parts.1.1 from rfl, h]
  split <;> exact ⟨_, rfl⟩

/-- A member whose value is followed by the closing bracket is the last one. -/
theorem parts_readMembers_last {room : Nat} {literal afterColon rest s : List Char} (first : Bool)
    (hname : stringLiteral literal = .ok (s, ':' :: afterColon))
    (hrest : (readValue room afterColon).rest = '\x7d' :: rest) :
    (readMembers room first ('"' :: literal)).parts =
      (([(String.ofList s, afterName (':' :: afterColon), (readValue room afterColon).result)],
        .closed (.here rest)), rest) := by
  have hquote : skip ('"' :: literal) = '"' :: literal := skip_of_not_blank rfl
  have hcolon : skip (':' :: afterColon) = ':' :: afterColon := skip_of_not_blank rfl
  have hclose : skip ('\x7d' :: rest) = '\x7d' :: rest := skip_of_not_blank rfl
  rw [parts_readMembers, hquote]
  simp only [hname, hcolon, hrest, hclose]

theorem parts_readMembers_more {room : Nat} {literal afterColon rest s : List Char} (first : Bool)
    (hname : stringLiteral literal = .ok (s, ':' :: afterColon))
    (hrest : (readValue room afterColon).rest = ',' :: rest) :
    (readMembers room first ('"' :: literal)).parts =
      (((String.ofList s, afterName (':' :: afterColon), (readValue room afterColon).result) ::
        (readMembers room false rest).result.1, (readMembers room false rest).result.2),
        (readMembers room false rest).rest) := by
  have hquote : skip ('"' :: literal) = '"' :: literal := skip_of_not_blank rfl
  have hcolon : skip (':' :: afterColon) = ':' :: afterColon := skip_of_not_blank rfl
  have hcomma : skip (',' :: rest) = ',' :: rest := skip_of_not_blank rfl
  rw [parts_readMembers, hquote]
  simp only [hname, hcolon, hrest, hcomma]

/-- Whatever follows, the value behind the first name is read as a value of its own. -/
theorem exists_readMembers_eq_cons (room : Nat) (first : Bool) {literal afterColon s : List Char}
    (hname : stringLiteral literal = .ok (s, ':' :: afterColon)) :
    ∃ ms, (readMembers room first ('"' :: literal)).result.1 = (String.ofList s,
      afterName (':' :: afterColon), (readValue room afterColon).result) :: ms := by
  have hquote : skip ('"' :: literal) = '"' :: literal := skip_of_not_blank rfl
  have hcolon : skip (':' :: afterColon) = ':' :: afterColon := skip_of_not_blank rfl
  have h := parts_readMembers room first ('"' :: literal)
  simp only [hquote, hname, hcolon] at h
  rw [show (readMembers room first ('"' :: literal)).result.1 =
    (readMembers room first ('"' :: literal)).parts.1.1 from rfl, h]
  split <;> exact ⟨_, rfl⟩

/-! ## 3. Values that were read -/

/-- If the reading is whole, its value does not nest more deeply. -/
def Reading.Within {μ φ : Type} (n : Nat) (r : Reading μ φ) : Prop :=
  ∀ v, r.value = .ok v → v.depth ≤ n

theorem within_array {n : Nat} {start : Place} {items : List TextReading}
    {ending : Ending Place Fault} (h : ∀ r ∈ items, r.Within n) :
    (Reading.array start items ending).Within (n + 1) := by
  intro v hv
  obtain ⟨vs, hvs, -, rfl⟩ := Reading.value_array_eq_ok_iff.1 hv
  rw [depth, Nat.add_le_add_iff_right, depthItems_le_iff]
  intro w hw
  obtain ⟨r, hr, hvalue⟩ := exists_mem_of_forall₂ (Reading.valueItems_eq_ok_iff.1 hvs) hw
  exact h r hr w hvalue

theorem within_object {n : Nat} {start : Place} {members : List (String × Place × TextReading)}
    {ending : Ending Place Fault} (h : ∀ m ∈ members, m.2.2.Within n) :
    (Reading.object start members ending).Within (n + 1) := by
  intro v hv
  obtain ⟨vs, hvs, -, rfl⟩ := Reading.value_object_eq_ok_iff.1 hv
  rw [depth, Nat.add_le_add_iff_right, depthMembers_le_iff]
  intro k w hw
  obtain ⟨m, hm, -, hvalue⟩ := exists_mem_of_forall₂ (Reading.valueMembers_eq_ok_iff.1 hvs) hw
  exact h m hm w hvalue

theorem within_of_flat {n : Nat} {r : TextReading} {v : Json} (hv : r.value = .ok v)
    (hflat : v.depth = 0) : r.Within n := by
  intro w hw
  rw [hv] at hw
  cases hw
  exact hflat ▸ Nat.zero_le n

theorem within_broken {n : Nat} {f : Fault} : (Reading.broken f : TextReading).Within n := nofun

/-- One level of room is gone behind a bracket, and there only. -/
theorem within_readValue_of_inner {room : Nat} {cs : List Char}
    (hitems : ∀ n rest, rest.length < cs.length →
      ∀ r ∈ (readItems n true rest).result.1, r.Within n)
    (hmembers : ∀ n rest, rest.length < cs.length →
      ∀ m ∈ (readMembers n true rest).result.1, m.2.2.Within n) :
    (readValue room cs).result.Within room := by
  have hlength := skip_length cs
  show (readValue room cs).parts.1.Within room
  cases hskip : skip cs with
  | nil =>
    rw [parts_readValue_nil hskip]
    exact within_broken
  | cons c rest =>
    rw [hskip] at hlength
    rw [parts_readValue hskip]
    split_ifs
    · split <;> first | exact within_of_flat rfl rfl | exact within_broken
    · cases room with
      | zero => exact within_broken
      | succ n => exact within_array (hitems n rest hlength)
    · cases room with
      | zero => exact within_broken
      | succ n => exact within_object (hmembers n rest hlength)
    · split <;> first | exact within_of_flat rfl rfl | exact within_broken
    · split <;> first | exact within_of_flat rfl rfl | exact within_broken
    · split <;> first | exact within_of_flat rfl rfl | exact within_broken
    · split <;> first | exact within_of_flat rfl rfl | exact within_broken
    · exact within_broken

theorem within_readItems_of_value {room : Nat} {first : Bool} {cs : List Char}
    (hvalue : (readValue room cs).result.Within room)
    (hmore : ∀ rest, rest.length < cs.length →
      ∀ r ∈ (readItems room false rest).result.1, r.Within room) :
    ∀ r ∈ (readItems room first cs).result.1, r.Within room := by
  have hone : ∀ r ∈ [(readValue room cs).result], r.Within room := by
    rw [List.forall_mem_singleton]
    exact hvalue
  show ∀ r ∈ (readItems room first cs).parts.1.1, r.Within room
  rw [parts_readItems]
  split
  · exact nofun
  · cases first <;> exact nofun
  · dsimp only
    split
    · exact hone
    · exact hone
    · rename_i rest hrest
      have hleft := skip_length (readValue room cs).rest
      have hitem := (readValue room cs).le
      rw [hrest, List.length_cons] at hleft
      rw [List.forall_mem_cons]
      exact ⟨hvalue, hmore rest (by omega)⟩
    · exact hone

theorem within_readMembers_of_value {room : Nat} {first : Bool} {cs : List Char}
    (hvalue : ∀ rest, rest.length < cs.length → (readValue room rest).result.Within room)
    (hmore : ∀ rest, rest.length < cs.length →
      ∀ m ∈ (readMembers room false rest).result.1, m.2.2.Within room) :
    ∀ m ∈ (readMembers room first cs).result.1, m.2.2.Within room := by
  have hlength := skip_length cs
  show ∀ m ∈ (readMembers room first cs).parts.1.1, m.2.2.Within room
  rw [parts_readMembers]
  split
  · exact nofun
  · cases first <;> exact nofun
  · rename_i literal hquote
    rw [hquote] at hlength
    split
    · exact nofun
    · rename_i s afterLiteral hliteral
      have hname := stringLiteral_length hliteral
      have hcolon := skip_length afterLiteral
      dsimp only
      split
      · rw [List.forall_mem_singleton]
        exact within_broken
      · rename_i afterColon hskip
        rw [hskip] at hcolon
        rw [List.length_cons] at hlength hcolon
        have hone := hvalue afterColon (by omega)
        split
        · rw [List.forall_mem_singleton]
          exact hone
        · rw [List.forall_mem_singleton]
          exact hone
        · rename_i rest hrest
          have hleft := skip_length (readValue room afterColon).rest
          have hitem := (readValue room afterColon).le
          rw [hrest, List.length_cons] at hleft
          rw [List.forall_mem_cons]
          exact ⟨hone, hmore rest (by omega)⟩
        · rw [List.forall_mem_singleton]
          exact hone
      · rw [List.forall_mem_singleton]
        exact within_broken
  · exact nofun

/-- Values, items and members are read from ever shorter texts. -/
theorem within_readValue (room : Nat) (cs : List Char) :
    (readValue room cs).result.Within room := by
  have hall : ∀ length (cs : List Char), cs.length = length →
      (∀ room, (readValue room cs).result.Within room) ∧
      (∀ room first, ∀ r ∈ (readItems room first cs).result.1, r.Within room) ∧
      ∀ room first, ∀ m ∈ (readMembers room first cs).result.1, m.2.2.Within room := by
    intro length
    induction length using Nat.strongRecOn with
    | _ length ih =>
      intro cs hcs
      subst hcs
      have hvalue : ∀ room, (readValue room cs).result.Within room := fun room =>
        within_readValue_of_inner (fun n rest h => (ih _ h rest rfl).2.1 n true)
          (fun n rest h => (ih _ h rest rfl).2.2 n true)
      refine ⟨hvalue, fun room first => ?_, fun room first => ?_⟩
      · exact within_readItems_of_value (hvalue room) fun rest h => (ih _ h rest rfl).2.1 room false
      · exact within_readMembers_of_value (fun rest h => (ih _ h rest rfl).1 room)
          fun rest h => (ih _ h rest rfl).2.2 room false
  exact (hall cs.length cs rfl).1 room

theorem read_eq_ok_iff {cs : List Char} {v : Json} :
    read cs = .ok v ↔ (readValue nestingLimit cs).result.value = .ok v ∧
      checkEnd (readValue nestingLimit cs).rest = .ok () := by
  unfold read readWithin
  simp only [Outline.bind_eq_ok_iff]
  constructor
  · rintro ⟨w, hw, _, hend, heq⟩
    cases heq
    exact ⟨hw, hend⟩
  · rintro ⟨hv, hend⟩
    exact ⟨v, hv, (), hend, rfl⟩

/-- No text is read as a value that is nested too deeply. -/
theorem depth_le_of_read {cs : List Char} {v : Json} (h : read cs = .ok v) :
    v.depth ≤ nestingLimit :=
  within_readValue nestingLimit cs v (read_eq_ok_iff.1 h).1

end CallContract.Json
