/-
  ModelCatalog/Proofs/Json/Reading.lean
  =====================================
  **What a value that is written is read as.**

  The reader builds a value from its tokens with the open containers around it, and a
  value leaves them as it finds them (`build_tokens`).  Each container takes one level, so
  a value that is not deeper than the levels left is read; and its members come in
  ascending order, so each is put behind the others.  With the tokens that its text spells
  this says what a text that was written is read as (`read?_render`): the value, but for its
  doubles, which are rounded once more.
-/
import ModelCatalog.Json.Reader
import ModelCatalog.Proofs.Entries
import ModelCatalog.Proofs.Json.Lexing

namespace ModelCatalog

/-- An entry whose name comes after all others is put behind them. -/
theorem Entries.Ascending.insert_append {α : Type} {entries : Entries α} {name : String}
    {value : α} (h : Ascending (entries ++ [(name, value)])) :
    Entries.insert name value entries = entries ++ [(name, value)] := by
  induction entries with
  | nil => rfl
  | cons head rest ih =>
    obtain ⟨n, v⟩ := head
    obtain ⟨hhead, hrest⟩ := List.pairwise_cons.mp h
    have hlt : n < name := hhead (name, value) (List.mem_append_right _ List.mem_cons_self)
    have hnot : ¬ name < n := fun hgt => String.lt_irrefl _ (String.lt_trans hlt hgt)
    have hne : name ≠ n := fun heq => String.lt_irrefl _ (heq ▸ hlt)
    rw [Entries.insert, if_neg hnot, if_neg hne, ih hrest]
    rfl

namespace Json

mutual

/-- How many containers are open at once where most are. -/
def depth : Json → Nat
  | .array items => itemsDepth items + 1
  | .object members => membersDepth members + 1
  | _ => 0

def itemsDepth : List Json → Nat
  | [] => 0
  | item :: rest => max item.depth (itemsDepth rest)

def membersDepth : List (String × Json) → Nat
  | [] => 0
  | (_, value) :: rest => max value.depth (membersDepth rest)

end

/-! ### The first token -/

/-- No value begins with the end of an array, so where that might stand an item is read
    as well. -/
theorem build_first_item (v : Json) (rest : List Token) (frames : List Frame) :
    (v.tokens ++ rest).foldlM Builder.step (.item frames) =
      (v.tokens ++ rest).foldlM Builder.step (.value (.items [] :: frames)) := by
  cases v <;> rfl

/-- The tokens of items, one of them at least, begin with those of the first. -/
theorem intercalate_cons_tokens (ts : List Token) (tss : List (List Token)) (last : Token) :
    [Token.comma].intercalate (ts :: tss) ++ [last] =
      ts ++ match tss with
        | [] => [last]
        | tss => Token.comma :: ([Token.comma].intercalate tss ++ [last]) := by
  cases tss with
  | nil => rw [List.intercalate_singleton]
  | cons us tss => simp [List.intercalate_cons_cons]

/-! ### Values -/

mutual

/-- **A value is built from its tokens**, if it is not too deep where it stands. -/
theorem build_tokens : (v : Json) → v.WellFormed → (frames : List Frame) →
    v.depth + frames.length ≤ maxDepth →
    v.tokens.foldlM Builder.step (.value frames) = some (.after frames v)
  | .null, _, _, _ => rfl
  | .bool _, _, _, _ => rfl
  | .number _, _, _, _ => rfl
  | .string _, _, _, _ => rfl
  | .array items, h, frames, hdepth => by
    simp only [depth] at hdepth
    have hopen : Builder.step (.value frames) .openArray = some (.item frames) :=
      if_pos (by omega)
    have hitems := build_items items h [] frames (by omega)
    rw [tokens, List.foldlM_cons, hopen]
    change List.foldlM Builder.step (.item frames) _ = _
    cases items with
    | nil => rfl
    | cons item rest =>
      rw [itemTokens, intercalate_cons_tokens, build_first_item, ← intercalate_cons_tokens]
      exact hitems (List.cons_ne_nil item rest)
  | .object members, h, frames, hdepth => by
    simp only [depth] at hdepth
    have hopen : Builder.step (.value frames) .openObject = some (.name frames [] true) :=
      if_pos (by omega)
    have hmembers := build_members members h.2 [] h.1 true frames (by omega)
    rw [tokens, List.foldlM_cons, hopen]
    cases members with
    | nil => rfl
    | cons member rest => exact hmembers (List.cons_ne_nil member rest)

theorem build_items : (items : List Json) → AllWellFormed items → (done : List Json) →
    (frames : List Frame) → itemsDepth items + (frames.length + 1) ≤ maxDepth → items ≠ [] →
    ([Token.comma].intercalate (itemTokens items) ++ [Token.closeArray]).foldlM Builder.step
      (.value (.items done :: frames)) = some (.after frames (.array (done.reverse ++ items)))
  | [], _, _, _, _, hne => absurd rfl hne
  | item :: rest, h, done, frames, hdepth, _ => by
    simp only [itemsDepth] at hdepth
    have hitem := build_tokens item h.1 (.items done :: frames)
      (by rw [List.length_cons]; omega)
    have hrest := build_items rest h.2 (item :: done) frames (by omega)
    rw [itemTokens, intercalate_cons_tokens, List.foldlM_append, hitem]
    cases rest with
    | nil =>
      rw [← List.reverse_cons]
      rfl
    | cons next rest =>
      rw [List.reverse_cons, List.append_assoc] at hrest
      exact hrest (List.cons_ne_nil next rest)

theorem build_members : (members : List (String × Json)) → MembersWellFormed members →
    (done : List (String × Json)) → Entries.Ascending (done ++ members) → (first : Bool) →
    (frames : List Frame) → membersDepth members + (frames.length + 1) ≤ maxDepth →
    members ≠ [] →
    ([Token.comma].intercalate (memberTokens members) ++ [Token.closeObject]).foldlM
      Builder.step (.name frames done first) = some (.after frames (.object (done ++ members)))
  | [], _, _, _, _, _, _, hne => absurd rfl hne
  | (name, value) :: rest, h, done, hnames, first, frames, hdepth, _ => by
    simp only [membersDepth] at hdepth
    have hvalue := build_tokens value h.1 (.member done name :: frames)
      (by rw [List.length_cons]; omega)
    have hsplit : done ++ (name, value) :: rest = done ++ [(name, value)] ++ rest :=
      List.append_cons done (name, value) rest
    rw [hsplit] at hnames ⊢
    have hinsert : Entries.insert name value done = done ++ [(name, value)] :=
      Entries.Ascending.insert_append (hnames.sublist (List.sublist_append_left _ rest))
    have hrest := build_members rest h.2 (done ++ [(name, value)]) hnames false frames (by omega)
    rw [memberTokens, intercalate_cons_tokens]
    change List.foldlM Builder.step (.value (.member done name :: frames)) (value.tokens ++ _) = _
    rw [List.foldlM_append, hvalue]
    cases rest with
    | nil =>
      rw [List.append_nil, ← hinsert]
      rfl
    | cons next rest =>
      rw [← hinsert] at hrest ⊢
      exact hrest (List.cons_ne_nil next rest)

end

/-! ### Values that are read again -/

theorem Number.wellFormed_reread {n : Number} (h : n.WellFormed) : n.reread.WellFormed := by
  cases n with
  | integer n => exact h
  | double d => exact Double.isFinite_reread h

theorem rereadItems_eq_map (items : List Json) : rereadItems items = items.map reread := by
  induction items with
  | nil => rfl
  | cons item rest ih => rw [rereadItems, ih, List.map_cons]

theorem rereadMembers_eq_map (members : List (String × Json)) :
    rereadMembers members = members.map fun e => (e.1, e.2.reread) := by
  induction members with
  | nil => rfl
  | cons e rest ih => rw [rereadMembers, ih, List.map_cons]

mutual

theorem wellFormed_reread : (v : Json) → v.WellFormed → v.reread.WellFormed
  | .null, _ => trivial
  | .bool _, _ => trivial
  | .number _, h => Number.wellFormed_reread h
  | .string _, _ => trivial
  | .array items, h => allWellFormed_reread items h
  | .object members, h => by
    have hnames : Entries.Ascending (rereadMembers members) := by
      rw [rereadMembers_eq_map]
      exact List.pairwise_map.mpr h.1
    exact ⟨hnames, membersWellFormed_reread members h.2⟩

theorem allWellFormed_reread : (items : List Json) → AllWellFormed items →
    AllWellFormed (rereadItems items)
  | [], _ => trivial
  | item :: rest, h => ⟨wellFormed_reread item h.1, allWellFormed_reread rest h.2⟩

theorem membersWellFormed_reread : (members : List (String × Json)) →
    MembersWellFormed members → MembersWellFormed (rereadMembers members)
  | [], _ => trivial
  | (_, value) :: rest, h => ⟨wellFormed_reread value h.1, membersWellFormed_reread rest h.2⟩

end

mutual

theorem depth_reread : (v : Json) → v.reread.depth = v.depth
  | .null => rfl
  | .bool _ => rfl
  | .number _ => rfl
  | .string _ => rfl
  | .array items => congrArg (· + 1) (itemsDepth_reread items)
  | .object members => congrArg (· + 1) (membersDepth_reread members)

theorem itemsDepth_reread : (items : List Json) →
    itemsDepth (rereadItems items) = itemsDepth items
  | [] => rfl
  | item :: rest => congrArg₂ max (depth_reread item) (itemsDepth_reread rest)

theorem membersDepth_reread : (members : List (String × Json)) →
    membersDepth (rereadMembers members) = membersDepth members
  | [] => rfl
  | (_, value) :: rest => congrArg₂ max (depth_reread value) (membersDepth_reread rest)

end

/-! ### Texts -/

theorem ofTokens?_tokens {v : Json} (h : v.WellFormed) (hdepth : v.depth ≤ maxDepth) :
    ofTokens? v.tokens = some v := by
  rw [ofTokens?, build_tokens v h [] hdepth]
  rfl

/-- **A value that is written is read back but for its doubles**, if it is well formed and
    not too deep. -/
theorem read?_render {v : Json} (h : v.WellFormed) (hdepth : v.depth ≤ maxDepth) :
    read? v.render = some v.reread := by
  rw [read?, tokens?_render h]
  exact ofTokens?_tokens (wellFormed_reread v h) (by rwa [depth_reread])

end Json

end ModelCatalog
