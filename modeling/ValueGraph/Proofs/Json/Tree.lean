import ValueGraph.Json.Tree
import ValueGraph.Proofs.Json.Token

namespace ValueGraph.Json

variable {t : Token} {j : Json} {js : List Json} {ms : List (Text × Json)} {r r' : List Token}

theorem length_tokens_pos (j : Json) : 0 < j.tokens.length := by
  cases j <;> simp [tokens]

theorem itemTokens_cons_cons {k : Json} :
    itemTokens (j :: k :: js) = j.tokens ++ .comma :: itemTokens (k :: js) := by
  rw [itemTokens]
  exact nofun

theorem memberTokens_cons_cons {name : Text} {m : Text × Json} :
    memberTokens ((name, j) :: m :: ms) =
      .text name :: .colon :: j.tokens ++ .comma :: memberTokens (m :: ms) := by
  rw [memberTokens]
  exact nofun

section Reading

variable {fuel : Nat}

theorem items_closeArray : items fuel (.closeArray :: r) = none := by
  cases fuel with
  | zero => rfl
  | succ fuel => cases fuel <;> rfl

theorem value_openArray (h : items fuel r = some (js, r')) :
    value (fuel + 1) (.openArray :: r) = some (.array js, r') := by
  unfold value
  dsimp only
  split
  next =>
    rw [items_closeArray] at h
    cases h
  next =>
    rw [h]
    rfl

theorem value_openObject (h : members fuel r = some (ms, r')) :
    value (fuel + 1) (.openObject :: r) = some (.object ms, r') := by
  unfold value
  dsimp only
  split
  next => cases fuel <;> cases h
  next =>
    rw [h]
    rfl

-- Each call has fuel for two calls per token that is left to it: an item of an array or a member
-- of an object costs one call for itself and one for its value, which has one token at least.
mutual

theorem value_tokens : ∀ (j : Json) {fuel : Nat} {r : List Token},
    2 * j.tokens.length ≤ fuel + 1 → value fuel (j.tokens ++ r) = some (j, r)
  | j, 0, _, h => by
    have := length_tokens_pos j
    omega
  | null, _ + 1, _, _ => by simp [tokens, value]
  | bool _, _ + 1, _, _ => by simp [tokens, value]
  | number _, _ + 1, _, _ => by simp [tokens, value]
  | text _, _ + 1, _, _ => by simp [tokens, value]
  | array [], _ + 1, _, _ => by simp [tokens, itemTokens, value]
  | object [], _ + 1, _, _ => by simp [tokens, memberTokens, value]
  | array (j :: js), fuel + 1, r, h => by
    simp only [tokens, List.length_append, List.length_cons, List.length_nil] at h
    have hitems : items fuel (itemTokens (j :: js) ++ .closeArray :: r) = some (j :: js, r) :=
      items_itemTokens j js (by omega)
    simpa [tokens] using value_openArray hitems
  | object (m :: ms), fuel + 1, r, h => by
    simp only [tokens, List.length_append, List.length_cons, List.length_nil] at h
    have hmembers : members fuel (memberTokens (m :: ms) ++ .closeObject :: r) =
      some (m :: ms, r) := members_memberTokens m ms (by omega)
    simpa [tokens] using value_openObject hmembers

theorem items_itemTokens : ∀ (j : Json) (js : List Json) {fuel : Nat} {r : List Token},
    2 * (itemTokens (j :: js)).length ≤ fuel →
      items fuel (itemTokens (j :: js) ++ .closeArray :: r) = some (j :: js, r)
  | j, [], 0, _, h => by
    have := length_tokens_pos j
    simp only [itemTokens] at h
    omega
  | j, [], fuel + 1, r, h => by
    simp only [itemTokens] at h
    have hj : ∀ r, value fuel (j.tokens ++ r) = some (j, r) := fun r => value_tokens j (by omega)
    simp [itemTokens, items, hj]
  | j, k :: js, 0, _, h => by
    rw [itemTokens_cons_cons, List.length_append] at h
    have := length_tokens_pos j
    omega
  | j, k :: js, fuel + 1, r, h => by
    rw [itemTokens_cons_cons, List.length_append, List.length_cons] at h
    have hj : ∀ r, value fuel (j.tokens ++ r) = some (j, r) := fun r => value_tokens j (by omega)
    have hjs : items fuel (itemTokens (k :: js) ++ .closeArray :: r) = some (k :: js, r) :=
      items_itemTokens k js (by omega)
    simp [itemTokens_cons_cons, items, hj, hjs]

theorem members_memberTokens : ∀ (m : Text × Json) (ms : List (Text × Json)) {fuel : Nat}
    {r : List Token}, 2 * (memberTokens (m :: ms)).length ≤ fuel →
      members fuel (memberTokens (m :: ms) ++ .closeObject :: r) = some (m :: ms, r)
  | (_, _), [], 0, _, h => by simp [memberTokens] at h
  | (_, j), [], fuel + 1, r, h => by
    simp only [memberTokens, List.length_cons] at h
    have hj : ∀ r, value fuel (j.tokens ++ r) = some (j, r) := fun r => value_tokens j (by omega)
    simp [memberTokens, members, hj]
  | (_, _), _ :: _, 0, _, h => by simp [memberTokens_cons_cons] at h
  | (_, j), m :: ms, fuel + 1, r, h => by
    simp only [memberTokens_cons_cons, List.length_append, List.length_cons] at h
    have hj : ∀ r, value fuel (j.tokens ++ r) = some (j, r) := fun r => value_tokens j (by omega)
    have hms : members fuel (memberTokens (m :: ms) ++ .closeObject :: r) = some (m :: ms, r) :=
      members_memberTokens m ms (by omega)
    simp [memberTokens_cons_cons, members, hj, hms]

end

theorem ofTokens?_tokens (j : Json) : ofTokens? j.tokens = some j := by
  have hj : value (2 * j.tokens.length) (j.tokens ++ []) = some (j, []) :=
    value_tokens j (by omega)
  rw [List.append_nil] at hj
  rw [ofTokens?, hj]

end Reading

section Neighbours

structure Follows (r : List Token) : Prop where
  apart : r.IsChain Token.Apart
  head : ∀ t ∈ r.head?, t.isNumber = false

theorem follows_nil : Follows [] := ⟨.nil, nofun⟩

theorem follows_cons (t : Token) (ht : t.isNumber = false) (hr : r.IsChain Token.Apart) :
    Follows (t :: r) where
  apart := List.isChain_cons.2 ⟨fun _ _ hn => absurd hn (by simp [ht]), hr⟩
  head := by
    rintro _ ⟨⟩
    exact ht

theorem Follows.isChain_cons (h : Follows r) : (t :: r).IsChain Token.Apart :=
  List.isChain_cons.2 ⟨fun t' ht' _ => h.head t' ht', h.apart⟩

mutual

theorem isChain_tokens_append : ∀ (j : Json) {r : List Token}, Follows r →
    (j.tokens ++ r).IsChain Token.Apart
  | null, _, h | bool _, _, h | number _, _, h | text _, _, h => h.isChain_cons
  | array js, r, h => by
    have hjs := isChain_itemTokens_append js (follows_cons .closeArray rfl h.apart)
    simpa [tokens] using (follows_cons .openArray rfl hjs).apart
  | object ms, r, h => by
    have hms := isChain_memberTokens_append ms (follows_cons .closeObject rfl h.apart)
    simpa [tokens] using (follows_cons .openObject rfl hms).apart

theorem isChain_itemTokens_append : ∀ (js : List Json) {r : List Token}, Follows r →
    (itemTokens js ++ r).IsChain Token.Apart
  | [], _, h => h.apart
  | [j], _, h => isChain_tokens_append j h
  | j :: k :: js, r, h => by
    have hjs := isChain_itemTokens_append (k :: js) h
    have hj := isChain_tokens_append j (follows_cons .comma rfl hjs)
    simpa [itemTokens_cons_cons] using hj

theorem isChain_memberTokens_append : ∀ (ms : List (Text × Json)) {r : List Token}, Follows r →
    (memberTokens ms ++ r).IsChain Token.Apart
  | [], _, h => h.apart
  | [(name, j)], _, h => by
    have hj := follows_cons .colon rfl (isChain_tokens_append j h)
    exact (follows_cons (.text name) rfl hj.apart).apart
  | (name, j) :: m :: ms, r, h => by
    have hms := isChain_memberTokens_append (m :: ms) h
    have hj := isChain_tokens_append j (follows_cons .comma rfl hms)
    have hm := follows_cons (.text name) rfl (follows_cons .colon rfl hj).apart
    simpa [memberTokens_cons_cons] using hm.apart

end

/-- No number is written next to another one. -/
theorem isChain_tokens (j : Json) : j.tokens.IsChain Token.Apart := by
  simpa using isChain_tokens_append j follows_nil

end Neighbours

section Plain

/-- Is no number in the tree written with a fraction or an exponent? -/
def Plain (j : Json) : Prop := ∀ t ∈ j.tokens, t.Plain

theorem plain_itemTokens : (∀ t ∈ itemTokens js, t.Plain) ↔ ∀ j ∈ js, j.Plain := by
  induction js with
  | nil => exact iff_of_true nofun nofun
  | cons j js ih =>
    cases js with
    | nil => simp [itemTokens, Plain]
    | cons k js =>
      have hcomma : Token.Plain .comma := trivial
      rw [itemTokens_cons_cons, List.forall_mem_append, List.forall_mem_cons, ih,
        List.forall_mem_cons (a := j)]
      exact and_congr_right' (and_iff_right hcomma)

theorem plain_memberTokens : (∀ t ∈ memberTokens ms, t.Plain) ↔ ∀ m ∈ ms, m.2.Plain := by
  induction ms with
  | nil => exact iff_of_true nofun nofun
  | cons m ms ih =>
    obtain ⟨name, j⟩ := m
    have hname : Token.Plain (.text name) := trivial
    have hcolon : Token.Plain .colon := trivial
    cases ms with
    | nil => simp [memberTokens, Plain, hname, hcolon]
    | cons m ms =>
      have hcomma : Token.Plain .comma := trivial
      rw [memberTokens_cons_cons, List.forall_mem_append, List.forall_mem_cons,
        List.forall_mem_cons, List.forall_mem_cons, ih, List.forall_mem_cons (a := (name, j))]
      simp only [hname, hcolon, hcomma, true_and]
      rfl

@[simp] theorem plain_array : (array js).Plain ↔ ∀ j ∈ js, j.Plain := by
  have hopen : Token.Plain .openArray := trivial
  have hclose : Token.Plain .closeArray := trivial
  rw [Plain, tokens, List.cons_append, List.forall_mem_cons, List.forall_mem_append,
    plain_itemTokens, List.forall_mem_singleton]
  simp only [hopen, hclose, true_and, and_true]

@[simp] theorem plain_object : (object ms).Plain ↔ ∀ m ∈ ms, m.2.Plain := by
  have hopen : Token.Plain .openObject := trivial
  have hclose : Token.Plain .closeObject := trivial
  rw [Plain, tokens, List.cons_append, List.forall_mem_cons, List.forall_mem_append,
    plain_memberTokens, List.forall_mem_singleton]
  simp only [hopen, hclose, true_and, and_true]

end Plain

/-- A tree is read back from its text. -/
theorem parse?_print (h : j.Plain) : parse? j.print = some j := by
  rw [parse?, print, String.toList_ofList, scan_flatMap_write h (isChain_tokens j)]
  exact ofTokens?_tokens j

end ValueGraph.Json
