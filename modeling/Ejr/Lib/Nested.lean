import Mathlib.Data.List.Basic

/-!
# Nested lists as text

Lists of values, nested to any depth, written with brackets and separators. A
`ListFormat` says how; `render` writes, `decode` reads back. Nothing is lost
(`decode_render`) when a format is `Lawful`: a value that was written is read up to
where it ends, and what it begins with is no bracket. The proof carries the text
that follows, which is what the nesting needs: behind an element stands a separator
or the closing bracket.
-/

namespace Ejr.Lib

/-- A value, or a list of such. -/
inductive Nested (β : Type) where
  | value (b : β)
  | list (items : List (Nested β))

/-- How values are written and read, the brackets, and what separates elements. -/
structure ListFormat (α β : Type) where
  write : β → List α
  read : List α → Option (β × List α)
  opening : α
  closing : α
  separator : List α

namespace Nested

variable {α β : Type}

/-- Induction: lists from their elements. -/
theorem induct {P : Nested β → Prop} (value : ∀ b, P (.value b))
    (list : ∀ items, (∀ t ∈ items, P t) → P (.list items)) : ∀ t, P t
  | .value b => value b
  | .list items => list items fun t _ => induct value list t

mutual

/-- The number of values and lists, each element counted once more. -/
def size : Nested β → Nat
  | .value _ => 1
  | .list items => sizeItems items + 1

/-- The size of the elements. -/
def sizeItems : List (Nested β) → Nat
  | [] => 0
  | t :: rest => t.size + sizeItems rest + 1

end

end Nested

namespace ListFormat

variable {α β : Type}

mutual

/-- The text of a nested list. -/
def render (F : ListFormat α β) : Nested β → List α
  | .value b => F.write b
  | .list items =>
    F.opening :: (F.separator.intercalate (F.renderItems items) ++ [F.closing])

/-- The texts of the elements. -/
def renderItems (F : ListFormat α β) : List (Nested β) → List (List α)
  | [] => []
  | t :: rest => F.render t :: F.renderItems rest

end

section

variable [DecidableEq α]

mutual

/-- Read a nested list from the front of a text; the first argument bounds the
depth. -/
def parse (F : ListFormat α β) : Nat → List α → Option (Nested β × List α)
  | 0, _ => none
  | n + 1, s =>
    if s.head? = some F.opening then
      if s.tail.head? = some F.closing then some (.list [], s.tail.tail)
      else (F.parseItems n s.tail).map fun r => (.list r.1, r.2)
    else (F.read s).map fun r => (.value r.1, r.2)

/-- Read the elements, up to the closing bracket. -/
def parseItems (F : ListFormat α β) : Nat → List α → Option (List (Nested β) × List α)
  | 0, _ => none
  | n + 1, s =>
    match F.parse n s with
    | none => none
    | some (t, r) =>
      if r.head? = some F.closing then some ([t], r.tail)
      else if F.separator <+: r then
        (F.parseItems n (r.drop F.separator.length)).map fun q => (t :: q.1, q.2)
      else none

end

/-- Read a whole text. -/
def decode (F : ListFormat α β) (s : List α) : Option (Nested β) :=
  match F.parse s.length s with
  | some (t, []) => some t
  | _ => none

end

/-- An element ends here. -/
def Ends (F : ListFormat α β) (rest : List α) : Prop :=
  rest = [] ∨ (∃ r, rest = F.closing :: r) ∨ ∃ r, rest = F.separator ++ r

/-- Values are read back up to where they end, and can be told from brackets. -/
structure Lawful (F : ListFormat α β) : Prop where
  read_write : ∀ b rest, F.Ends rest → F.read (F.write b ++ rest) = some (b, rest)
  write_head : ∀ b, ∃ a w, F.write b = a :: w ∧ a ≠ F.opening ∧ a ≠ F.closing
  opening_ne : F.opening ≠ F.closing
  separator_head : ∃ a w, F.separator = a :: w ∧ a ≠ F.closing

section

variable [DecidableEq α] {F : ListFormat α β} {n : Nat} {rest : List α}

omit [DecidableEq α] in
/-- No text begins with the closing bracket. -/
theorem Lawful.render_head (hF : F.Lawful) (t : Nested β) :
    ∃ a w, F.render t = a :: w ∧ a ≠ F.closing := by
  cases t with
  | value b =>
    obtain ⟨a, w, hw, -, hne⟩ := hF.write_head b
    exact ⟨a, w, hw, hne⟩
  | list items => exact ⟨F.opening, _, rfl, hF.opening_ne⟩

omit [DecidableEq α] in
/-- A text is at least as long as what it says is large. -/
theorem Lawful.size_le (hF : F.Lawful) (t : Nested β) : t.size ≤ (F.render t).length := by
  induction t using Nested.induct with
  | value b =>
    obtain ⟨a, w, hw, -⟩ := hF.write_head b
    rw [Nested.size, render, hw, List.length_cons]
    omega
  | list items ih =>
    obtain ⟨a, w, hsep, -⟩ := hF.separator_head
    have hpos : 0 < F.separator.length := by
      rw [hsep]
      exact Nat.succ_pos _
    have hitems : ∀ items : List (Nested β), (∀ t ∈ items, t.size ≤ (F.render t).length) →
        Nested.sizeItems items ≤ (F.separator.intercalate (F.renderItems items)).length + 1 := by
      intro items
      induction items with
      | nil => exact fun _ => Nat.zero_le _
      | cons t rest ih' =>
        intro h
        have ht := h t (List.mem_cons_self ..)
        have hrest := ih' fun u hu => h u (List.mem_cons_of_mem _ hu)
        rw [Nested.sizeItems]
        cases rest with
        | nil =>
          simp only [renderItems, List.intercalate_singleton, Nested.sizeItems]
          omega
        | cons u us =>
          simp only [renderItems, List.intercalate_cons_cons, List.length_append] at hrest ⊢
          omega
    rw [Nested.size, render, List.length_cons, List.length_append, List.length_singleton]
    have := hitems items ih
    omega

/-- The elements are read back when each of them is. -/
theorem Lawful.parseItems_render (hF : F.Lawful) : ∀ {items : List (Nested β)} {n : Nat},
    (∀ t ∈ items, ∀ n rest, t.size ≤ n → F.Ends rest →
      F.parse n (F.render t ++ rest) = some (t, rest)) →
    items ≠ [] → Nested.sizeItems items ≤ n →
    F.parseItems n (F.separator.intercalate (F.renderItems items) ++ F.closing :: rest) =
      some (items, rest)
  | [], _, _, hne, _ => absurd rfl hne
  | _ :: _, 0, _, _, hn => absurd hn (by simp [Nested.sizeItems])
  | [t], n + 1, hone, _, hn => by
    have hsize : t.size ≤ n := by
      simp only [Nested.sizeItems] at hn
      omega
    have ht := hone t (List.mem_singleton_self t) n (F.closing :: rest) hsize (.inr (.inl ⟨_, rfl⟩))
    simp only [renderItems, List.intercalate_singleton]
    rw [parseItems, ht]
    simp
  | t :: u :: us, n + 1, hone, _, hn => by
    rw [Nested.sizeItems] at hn
    have hsep : F.Ends (F.separator ++ (F.separator.intercalate (F.renderItems (u :: us)) ++
        F.closing :: rest)) := .inr (.inr ⟨_, rfl⟩)
    have ht := hone t (List.mem_cons_self ..) n _ (by omega) hsep
    have hrest := hF.parseItems_render (n := n) (fun v hv => hone v (List.mem_cons_of_mem _ hv))
      (by simp) (by omega)
    have htext : F.separator.intercalate (F.renderItems (t :: u :: us)) ++ F.closing :: rest =
        F.render t ++ (F.separator ++ (F.separator.intercalate (F.renderItems (u :: us)) ++
          F.closing :: rest)) := by
      simp only [renderItems, List.intercalate_cons_cons, List.append_assoc]
    -- behind the first element stands a separator, which is not the closing bracket
    obtain ⟨a, w, hsepw, hne⟩ := hF.separator_head
    have hhead : (F.separator ++ (F.separator.intercalate (F.renderItems (u :: us)) ++
        F.closing :: rest)).head? ≠ some F.closing := by
      rw [hsepw, List.cons_append, List.head?_cons]
      exact fun h => hne (Option.some.inj h)
    rw [htext, parseItems, ht]
    simp only [if_neg hhead, if_pos (List.prefix_append _ _), List.drop_left, hrest]
    rfl

/-- What was written is read back, whatever an element may be followed by. -/
theorem Lawful.parse_render (hF : F.Lawful) (t : Nested β) : ∀ n rest, t.size ≤ n → F.Ends rest →
    F.parse n (F.render t ++ rest) = some (t, rest) := by
  induction t using Nested.induct with
  | value b =>
    intro n rest hn hends
    obtain ⟨n, rfl⟩ : ∃ m, n = m + 1 := ⟨n - 1, by simp only [Nested.size] at hn; omega⟩
    obtain ⟨a, w, hw, hne, -⟩ := hF.write_head b
    have hhead : (F.write b ++ rest).head? ≠ some F.opening := by
      rw [hw, List.cons_append, List.head?_cons]
      exact fun h => hne (Option.some.inj h)
    rw [parse, render, if_neg hhead, hF.read_write b rest hends]
    rfl
  | list items ih =>
    intro n rest hn hends
    rw [Nested.size] at hn
    obtain ⟨n, rfl⟩ : ∃ m, n = m + 1 := ⟨n - 1, by omega⟩
    have htext : F.render (.list items) ++ rest = F.opening ::
        (F.separator.intercalate (F.renderItems items) ++ F.closing :: rest) := by
      rw [render, List.cons_append, List.append_assoc, List.singleton_append]
    rw [htext, parse, List.head?_cons, if_pos rfl, List.tail_cons]
    cases items with
    | nil => exact if_pos rfl
    | cons u us =>
      -- the first element does not begin with the closing bracket
      have hhead : (F.separator.intercalate (F.renderItems (u :: us)) ++
          F.closing :: rest).head? ≠ some F.closing := by
        obtain ⟨a, w, hw, hne⟩ := hF.render_head u
        have hcons : ∃ v, F.separator.intercalate (F.renderItems (u :: us)) = a :: v := by
          rw [renderItems, hw]
          exact ⟨_, List.intercalate_cons_cons_left⟩
        obtain ⟨v, hv⟩ := hcons
        rw [hv, List.cons_append, List.head?_cons]
        exact fun h => hne (Option.some.inj h)
      rw [if_neg hhead, hF.parseItems_render ih (by simp) (by omega)]
      rfl

/-- **Nested lists can be read back from their text.** -/
theorem Lawful.decode_render (hF : F.Lawful) (t : Nested β) : F.decode (F.render t) = some t := by
  have hparse := hF.parse_render t (F.render t).length [] (hF.size_le t) (.inl rfl)
  rw [List.append_nil] at hparse
  rw [decode, hparse]

end

end ListFormat

end Ejr.Lib
