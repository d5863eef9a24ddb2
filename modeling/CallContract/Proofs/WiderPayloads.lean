import CallContract.Proofs.Conformance

/-!
# Wider payloads

An open check accepts whatever a closed one does, and a payload with one more member somewhere in it
if it accepts the payload without it.  Every field of an object is required, so the name of the new
member is none of the fields of an object type that had the value before, and a value that had a
type, whichever of the alternatives, has it still.
-/

namespace CallContract

/-! ## 1. One more member -/

/-- The second value has one member more than the first one, in one object at any depth; the object
did not have the name before. -/
inductive Json.Widened : Json → Json → Prop
  | here {before after : Named Json} {k : String} {x : Json} :
      k ∉ (before ++ after).names → x.Distinct →
      Widened (.object (before ++ after)) (.object (before ++ (k, x) :: after))
  | member {before after : Named Json} {k : String} {v w : Json} : Widened v w →
      Widened (.object (before ++ (k, v) :: after)) (.object (before ++ (k, w) :: after))
  | item {before after : List Json} {v w : Json} : Widened v w →
      Widened (.array (before ++ v :: after)) (.array (before ++ w :: after))

section

variable {α : Type} {before after : List α} {a b c : α}

theorem mem_middle_iff : a ∈ before ++ b :: after ↔ a = b ∨ a ∈ before ++ after := by
  rw [List.perm_middle.mem_iff, List.mem_cons]

/-- What is in a list after one element was exchanged was there before or is the new element. -/
theorem mem_of_mem_exchanged (h : a ∈ before ++ c :: after) : a = c ∨ a ∈ before ++ b :: after := by
  rw [mem_middle_iff] at h
  rw [mem_middle_iff]
  exact h.imp_right .inr

theorem Named.names_exchanged {α : Type} (before after : Named α) (k : String) (x y : α) :
    (before ++ (k, y) :: after).names = (before ++ (k, x) :: after).names := by
  rw [Named.names_append, Named.names_append, Named.names_cons, Named.names_cons]

end

/-- No object repeats a name afterwards if none did before. -/
theorem Json.Widened.distinct {v w : Json} (h : v.Widened w) (hv : v.Distinct) : w.Distinct := by
  induction h with
  | @here before after k x hk hx =>
    have ⟨hnames, hvalues⟩ := distinct_object_iff.1 hv
    have hperm : (before ++ (k, x) :: after).names.Perm (k :: (before ++ after).names) :=
      List.perm_middle.map Prod.fst
    rw [distinct_object_iff]
    refine ⟨hperm.nodup_iff.2 (List.nodup_cons.2 ⟨hk, hnames⟩), fun m hm => ?_⟩
    cases mem_middle_iff.1 hm with
    | inl heq => exact heq ▸ hx
    | inr hm => exact hvalues m hm
  | @member before after k v w _ ih =>
    have ⟨hnames, hvalues⟩ := distinct_object_iff.1 hv
    rw [distinct_object_iff]
    refine ⟨?_, fun m hm => ?_⟩
    · rw [Named.Distinct, Named.names_exchanged before after k v w]
      exact hnames
    · have hmem : m = (k, w) ∨ m ∈ before ++ (k, v) :: after := mem_of_mem_exchanged hm
      cases hmem with
      | inl heq => exact heq ▸ ih (hvalues (k, v) (mem_middle_iff.2 (.inl rfl)))
      | inr hm => exact hvalues m hm
  | @item before after v w _ ih =>
    rw [distinct_array_iff] at hv
    rw [distinct_array_iff]
    intro x hx
    have hmem : x = w ∨ x ∈ before ++ v :: after := mem_of_mem_exchanged hx
    cases hmem with
    | inl heq => exact heq ▸ ih (hv _ (mem_middle_iff.2 (.inl rfl)))
    | inr hx => exact hv x hx

namespace Contract

variable {c : Contract} {closed : Bool} {t : Ty DeclId} {fs : Fields DeclId} {v w : Json}

/-! ## 2. Values of types -/

/-- A value of a type is one of it if objects are open, too. -/
theorem Conforms.opened (h : c.Conforms closed t v) : c.Conforms false t v := by
  induction h with
  | scalar h => exact .scalar h
  | enumeration he hs => exact .enumeration he hs
  | record hr _ ih => exact .record hr ih
  | null t => exact .null t
  | nullable _ ih => exact .nullable ih
  | array _ ih => exact .array ih
  | union ht _ ih => exact .union ht ih
  | object hpresent _ _ ih =>
    exact .object hpresent ih fun hclosed => absurd hclosed Bool.false_ne_true

/-- Scalars have no members, neither in them nor below. -/
theorem not_widened_of_admits {s : Scalar} (h : s.Admits v) : ¬v.Widened w := by
  intro hw
  cases hw <;> cases s <;> exact h

/-- A value of a type stays one of it if it gets one more member. -/
theorem Conforms.widened (h : c.Conforms false t v) (hw : v.Widened w) : c.Conforms false t w := by
  induction h generalizing w with
  | scalar h => exact absurd hw (not_widened_of_admits h)
  | enumeration he hs => cases hw
  | record hr _ ih => exact .record hr (ih hw)
  | null t => cases hw
  | nullable _ ih => exact .nullable (ih hw)
  | array hitems ih =>
    cases hw with
    | @item before after y z hyz =>
      have hmem (u : Json) (hu : u ∈ before ++ z :: after) : u = z ∨ u ∈ before ++ y :: after :=
        mem_of_mem_exchanged hu
      apply Conforms.array
      intro u hu
      cases hmem u hu with
      | inl heq => exact heq ▸ ih y (mem_middle_iff.2 (.inl rfl)) hyz
      | inr hu => exact hitems u hu
  -- The value may come to fit other alternatives, but it still fits the one that it fitted.
  | union ht _ ih => exact .union ht (ih hw)
  | @object fs members hpresent hvalues _ ih =>
    cases hw with
    | @here before after k x hk hx =>
      refine .object ?_ ?_ nofun
      · intro n hn
        rw [Named.mem_names_iff]
        have ⟨u, hu⟩ := Named.mem_names_iff.1 (hpresent n hn)
        exact ⟨u, mem_middle_iff.2 (.inr hu)⟩
      · intro n t u ht hu
        cases mem_middle_iff.1 hu with
        | inl heq =>
          -- A field has a member already, so the new name is not one of a field.
          cases heq
          exact absurd (hpresent k (Named.mem_names_iff.2 ⟨t, ht⟩)) hk
        | inr hu => exact hvalues n t u ht hu
    | @member before after k y z hyz =>
      have hsame := Named.names_exchanged before after k y z
      have hmem (m : String × Json) (hm : m ∈ before ++ (k, z) :: after) :
          m = (k, z) ∨ m ∈ before ++ (k, y) :: after := mem_of_mem_exchanged hm
      refine .object (hsame ▸ hpresent) ?_ nofun
      intro n t u ht hu
      cases hmem (n, u) hu with
      | inl heq =>
        cases heq
        exact ih k t y ht (mem_middle_iff.2 (.inl rfl)) hyz
      | inr hu => exact hvalues n t u ht hu

/-- A closed object has all its fields already, so it has no room for one more member. -/
theorem not_conforms_closed {before after : Named Json} {k : String} {x : Json}
    (h : c.Conforms true (.object fs) (.object (before ++ after)))
    (hk : k ∉ (before ++ after).names) :
    ¬c.Conforms true (.object fs) (.object (before ++ (k, x) :: after)) := by
  intro hwider
  have hpresent := (conforms_object_iff.1 h).1
  have hclosed := (conforms_object_iff.1 hwider).2.2 rfl
  have hnew : k ∈ (before ++ (k, x) :: after).names :=
    Named.mem_names_iff.2 ⟨x, mem_middle_iff.2 (.inl rfl)⟩
  exact hk (hpresent k (hclosed k hnew))

/-! ## 3. Payloads -/

namespace Resolved

/-- A payload is accepted under a name if there is a method of this name and it conforms. -/
theorem accepts_iff (hc : c.Resolved) (hread : c.document.WasRead) {name : String}
    {direction : Direction} {payload : Json} (hpayload : payload.Distinct) :
    c.checkPayload name direction closed payload = .ok () ↔
      ∃ m, c.method? name = some m ∧ c.Conforms closed (.object (m.fields direction)) payload := by
  cases hfound : c.method? name with
  | none => simp [checkPayload, schema, export?, hfound]
  | some m =>
    have hm : m ∈ c.methods := List.mem_of_find?_eq_some hfound
    have hname : m.name = name := by simpa using List.find?_some hfound
    have haccepts : c.checkPayload name direction closed payload = .ok () ↔
        c.Conforms closed (.object (m.fields direction)) payload := by
      rw [← hname, hc.checkPayload_eq_ok_iff hread hm]
      exact hc.decides closed hpayload _ (uses_method hm direction)
    rw [haccepts]
    simp

end Resolved

/-- **Wider payloads are accepted by open checks**: whatever a closed check of a method accepts an
open one accepts, and if an open check accepts a payload it accepts the payload with one more member
in any object in it.  A closed check accepts no payload with one more member at the top than one
that it accepts. -/
theorem wider_payloads_accepted {d : Document} {s : Strictness} {c : Contract} (hread : d.WasRead)
    (h : d.validate s = .ok c) (name : String) (direction : Direction) {payload : Json}
    (hpayload : payload.Distinct) :
    (c.checkPayload name direction true payload = .ok () →
      c.checkPayload name direction false payload = .ok ()) ∧
    (∀ wider, payload.Widened wider → c.checkPayload name direction false payload = .ok () →
      c.checkPayload name direction false wider = .ok ()) ∧
    ∀ (before after : Named Json) (k : String) (x : Json), payload = .object (before ++ after) →
      k ∉ (before ++ after).names → x.Distinct →
      c.checkPayload name direction true payload = .ok () →
      c.checkPayload name direction true (.object (before ++ (k, x) :: after)) ≠ .ok () := by
  obtain ⟨rfl, hc⟩ := resolved_of_validate h
  refine ⟨fun haccepted => ?_, fun wider hwider haccepted => ?_,
    fun before after k x heq hk hx haccepted hwider => ?_⟩
  · have ⟨m, hm, hconforms⟩ := (hc.accepts_iff hread hpayload).1 haccepted
    exact (hc.accepts_iff hread hpayload).2 ⟨m, hm, hconforms.opened⟩
  · have ⟨m, hm, hconforms⟩ := (hc.accepts_iff hread hpayload).1 haccepted
    have hdistinct := hwider.distinct hpayload
    exact (hc.accepts_iff hread hdistinct).2 ⟨m, hm, hconforms.widened hwider⟩
  · have hpayload' : (Json.object (before ++ after)).Distinct := heq ▸ hpayload
    have hdistinct := (Json.Widened.here hk hx).distinct hpayload'
    have ⟨m, hm, hconforms⟩ := (hc.accepts_iff hread hpayload).1 haccepted
    have ⟨m', hm', hconforms'⟩ := (hc.accepts_iff hread hdistinct).1 hwider
    rw [hm] at hm'
    cases hm'
    rw [heq] at hconforms
    exact not_conforms_closed hconforms hk hconforms'

/-- A document in which both alternatives of a union ask for a price. -/
def offers : Document where
  enumerations := []
  records := []
  methods := [⟨"offer", [("item", .union [.object [("price", .scalar .integer)],
    .object [("price", .scalar .integer), ("note", .scalar .string)]])], []⟩]

/-- The contract of `offers`. -/
def offersContract : Contract where
  document := offers
  scope := .empty
  records := []
  methods := [⟨"offer", [("item", .union [.object [("price", .scalar .integer)],
    .object [("price", .scalar .integer), ("note", .scalar .string)]])], []⟩]
  warnings := []

/-- An offer of an item with these members. -/
def offerOf (members : Named Json) : Json := .object [("item", .object members)]

theorem conforms_offerOf_price : offersContract.Conforms closed
    (.object [("item", .union [.object [("price", .scalar .integer)],
      .object [("price", .scalar .integer), ("note", .scalar .string)]])])
    (offerOf [("price", .number (.integer 1))]) := by
  have hitem : offersContract.Conforms closed (.object [("price", .scalar .integer)])
      (.object [("price", .number (.integer 1))]) := by
    refine .object (fun n hn => hn) ?_ fun _ n hn => hn
    intro n t v ht hv
    rw [List.mem_singleton] at ht hv
    cases ht
    cases hv
    exact .scalar rfl
  refine .object (fun n hn => hn) ?_ fun _ n hn => hn
  intro n t v ht hv
  rw [List.mem_singleton] at ht hv
  cases ht
  cases hv
  exact .union List.mem_cons_self hitem

/-- The note would have to be a string for the second alternative, but the first one still fits. -/
theorem wider_payloads_accepted_offers : offers.WasRead ∧
    offers.validate .standard = .ok offersContract ∧
    (offerOf [("price", .number (.integer 1))]).Distinct ∧
    (offerOf [("price", .number (.integer 1))]).Widened
      (offerOf [("price", .number (.integer 1)), ("note", .null)]) ∧
    offersContract.checkPayload "offer" .request true
      (offerOf [("price", .number (.integer 1))]) = .ok () ∧
    offersContract.checkPayload "offer" .request false
      (offerOf [("price", .number (.integer 1)), ("note", .null)]) = .ok () := by
  have hread : offers.WasRead := .inr ⟨offers.toJson, by decide +kernel⟩
  have hvalid : offers.validate .standard = .ok offersContract := by decide +kernel
  have hdistinct : (offerOf [("price", .number (.integer 1))]).Distinct := by
    simp [offerOf, Json.Distinct, Json.DistinctMembers, Named.Distinct]
  have hwider : (offerOf [("price", .number (.integer 1))]).Widened
      (offerOf [("price", .number (.integer 1)), ("note", .null)]) :=
    @Json.Widened.member [] [] "item" _ _
      (@Json.Widened.here [("price", .number (.integer 1))] [] "note" .null (by decide) trivial)
  have hresolved := (resolved_of_validate hvalid).2
  have haccepted : offersContract.checkPayload "offer" .request true
      (offerOf [("price", .number (.integer 1))]) = .ok () :=
    (hresolved.accepts_iff hread hdistinct).2
      ⟨_, rfl, conforms_offerOf_price⟩
  have hlaws := wider_payloads_accepted hread hvalid "offer" .request hdistinct
  exact ⟨hread, hvalid, hdistinct, hwider, haccepted, hlaws.2.1 _ hwider (hlaws.1 haccepted)⟩

end Contract
end CallContract
