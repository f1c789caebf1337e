import LogBuckets.Json.Skip
import LogBuckets.Proofs.Json.Grammar

/-!
# `LogBuckets.Proofs.Json.Skip`: reading past exactly one value

`Skip` takes one token after the other and keeps what is open around it.
`Skip.past` is a whole run of it: the tokens that are left when the value has
ended. The value may be anything that `IsValue` allows, so what is proved about
one value is proved inside any number of arrays and objects: wherever a value is
due, reading it leaves what is open as it was (`past_value`). In an array or
object this is done once for every part (`past_parts`).

* `past_start`: so a value is read past to its end, and no token of what follows
  is touched.
-/

set_option autoImplicit false

namespace LogBuckets.Json.Skip

/-- The tokens that are left when the value that is being read past has ended. -/
def past (s : Skip) : List Token → Option (List Token)
  | [] => none
  | t :: ts =>
    match s.step t with
    | .fault => none
    | .done => some ts
    | .more s' => s'.past ts

/-- The same, with one token just read. -/
def Outcome.past (ts : List Token) : Outcome → Option (List Token)
  | .fault => none
  | .done => some ts
  | .more s => s.past ts

/-- Reading past tokens is one step after the other. -/
theorem past_cons (s : Skip) (t : Token) (ts : List Token) :
    s.past (t :: ts) = (s.step t).past ts := by
  rw [past]
  cases s.step t <;> rfl

/-- Inside an array or object the end of a part leads to the next comma or to the
end. -/
theorem past_closed (frame : Frame) (frames : List Frame) (ts : List Token) :
    (closed (frame :: frames)).past ts = past ⟨.separator, frame :: frames⟩ ts :=
  rfl

/-- If every part is read with the comma before it, all of them are. -/
theorem past_parts {frames : List Frame} {parts : List (List Token)}
    (hnext : ∀ part ∈ parts, ∀ rest,
      past ⟨.separator, frames⟩ (.mark .comma :: (part ++ rest)) = past ⟨.separator, frames⟩ rest)
    (rest : List Token) :
    past ⟨.separator, frames⟩ (parts.flatMap (.mark .comma :: ·) ++ rest)
      = past ⟨.separator, frames⟩ rest := by
  induction parts with
  | nil => rfl
  | cons part parts ih =>
      have hpart := hnext part (by simp) (parts.flatMap (.mark .comma :: ·) ++ rest)
      rw [List.flatMap_cons, List.cons_append, List.cons_append, List.append_assoc, hpart]
      exact ih fun p hp => hnext p (by simp [hp])

/-- An array or object is read to its end, if each of its parts is read both where
the first one stands and after a comma. -/
theorem past_between (need : Need) {frame : Frame} {frames : List Frame} {last : Mark}
    {parts : List (List Token)} {rest : List Token}
    (hempty : past ⟨need, frame :: frames⟩ (.mark last :: rest) = (closed frames).past rest)
    (hend : past ⟨.separator, frame :: frames⟩ (.mark last :: rest) = (closed frames).past rest)
    (hfirst : ∀ part ∈ parts, ∀ rest, past ⟨need, frame :: frames⟩ (part ++ rest)
      = past ⟨.separator, frame :: frames⟩ rest)
    (hnext : ∀ part ∈ parts, ∀ rest,
      past ⟨.separator, frame :: frames⟩ (.mark .comma :: (part ++ rest))
        = past ⟨.separator, frame :: frames⟩ rest) :
    past ⟨need, frame :: frames⟩ ([.mark .comma].intercalate parts ++ .mark last :: rest)
      = (closed frames).past rest := by
  cases parts with
  | nil => exact hempty
  | cons part parts =>
      have hparts : ∀ p ∈ parts, ∀ rest,
          past ⟨.separator, frame :: frames⟩ (.mark .comma :: (p ++ rest))
            = past ⟨.separator, frame :: frames⟩ rest :=
        fun p hp => hnext p (by simp [hp])
      rw [intercalate_cons, List.append_assoc, hfirst part (by simp), past_parts hparts, hend]

/-- At the beginning of an array a value may come as well as the end, and no value
begins with the end. -/
theorem past_firstElement {value : List Token} (h : IsValue value) (frames : List Frame)
    (rest : List Token) :
    past ⟨.firstElement, frames⟩ (value ++ rest) = past ⟨.value, frames⟩ (value ++ rest) := by
  cases h <;> rfl

/-- Wherever a value is due, it is read to its end. -/
theorem past_value {value : List Token} (h : IsValue value) (frames : List Frame)
    (rest : List Token) :
    past ⟨.value, frames⟩ (value ++ rest) = (closed frames).past rest := by
  induction h generalizing frames rest with
  | word => exact past_cons _ _ _
  | text content => exact past_cons _ _ _
  | numeral n => exact past_cons _ _ _
  | array h ih =>
      rw [enclosed_append, past_cons]
      -- An element is a value, which may stand first and after a comma.
      refine past_between .firstElement (past_cons _ _ _) (past_cons _ _ _) ?_ ?_
      · intro value hvalue rest
        rw [past_firstElement (h value hvalue), ih value hvalue, past_closed]
      · intro value hvalue rest
        rw [past_cons]
        exact ih value hvalue _ rest
  | @object members h ih =>
      -- A member is a key, a colon and a value. The key is read as the first one and
      -- after a comma, and from the colon on both are the same.
      have hcolon : ∀ m ∈ members, ∀ rest,
          past ⟨.colon, .object :: frames⟩ (.mark .colon :: (m.2 ++ rest))
            = past ⟨.separator, .object :: frames⟩ rest := by
        intro m hm rest
        rw [past_cons]
        exact ih m hm _ rest
      rw [enclosed_append, past_cons]
      refine past_between .firstKey (past_cons _ _ _) (past_cons _ _ _) ?_ ?_
      · intro part hpart rest
        obtain ⟨m, hm, rfl⟩ := List.mem_map.1 hpart
        rw [member, List.cons_append, past_cons]
        exact hcolon m hm rest
      · intro part hpart rest
        obtain ⟨m, hm, rfl⟩ := List.mem_map.1 hpart
        rw [past_cons]
        show past ⟨.key, .object :: frames⟩ (member m.1 m.2 ++ rest) = _
        rw [member, List.cons_append, past_cons]
        exact hcolon m hm rest

/-- A value is read past to its end, and what follows is left. -/
theorem past_start {value : List Token} (h : IsValue value) (rest : List Token) :
    start.past (value ++ rest) = some rest :=
  past_value h [] rest

end LogBuckets.Json.Skip
