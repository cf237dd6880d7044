import Mathlib.Data.List.TakeWhile

/-!
# Markup

Elements with attributes, and characters between the tags. `parse` reads a string into tokens and
these into elements; it fails when a tag is not closed, when the tags do not match, and when a
character stands where only its reference may.
-/

namespace Markup

abbrev Str := List UInt8

inductive Node where
  | element (name : Str) (attrs : List (Str × Str)) (content : List Node)
  | char (c : UInt8)

inductive Token where
  | start (name : Str) (attrs : List (Str × Str))
  | stop (name : Str)
  | char (c : UInt8)
  deriving DecidableEq, Repr

/-- Neither a delimiter of tags, attributes and references nor white space. -/
def isNameByte (c : UInt8) : Bool :=
  !(c = 60 || c = 62 || c = 47 || c = 61 || c = 34 || c = 39 || c = 38 || c = 32 || c = 9 ||
    c = 10 || c = 13)

/-- Neither the quotation mark nor the beginning of markup. -/
def isValueByte (c : UInt8) : Bool := !(c = 34 || c = 60 || c = 62 || c = 38)

def isTextByte (c : UInt8) : Bool := !(c = 60 || c = 62 || c = 38)

structure IsName (name : Str) : Prop where
  nonempty : name ≠ []
  bytes : ∀ c ∈ name, isNameByte c = true

instance (name : Str) : Decidable (IsName name) :=
  decidable_of_iff (name ≠ [] ∧ name.all isNameByte = true)
    ⟨fun h => ⟨h.1, List.all_eq_true.mp h.2⟩, fun h => ⟨h.nonempty, List.all_eq_true.mpr h.bytes⟩⟩

def IsAttr (attr : Str × Str) : Prop := IsName attr.1 ∧ ∀ c ∈ attr.2, isValueByte c = true

instance : DecidablePred IsAttr := fun attr =>
  decidable_of_iff (IsName attr.1 ∧ attr.2.all isValueByte = true)
    (and_congr_right fun _ => List.all_eq_true)

def Token.WellFormed : Token → Prop
  | start name attrs => IsName name ∧ ∀ attr ∈ attrs, IsAttr attr
  | stop name => IsName name
  | char c => isTextByte c = true

section Parser

/-- The attributes up to the end of a start tag, each after one blank. -/
def lexAttrs : Nat → Str → Option (List (Str × Str) × Str)
  | _, 62 :: s => some ([], s)
  | fuel + 1, 32 :: s =>
    match s.takeWhile isNameByte, s.dropWhile isNameByte with
    | name, 61 :: 34 :: s =>
      match s.takeWhile isValueByte, s.dropWhile isValueByte with
      | value, 34 :: s =>
        if name = [] then none
        else (lexAttrs fuel s).map fun rest => ((name, value) :: rest.1, rest.2)
      | _, _ => none
    | _, _ => none
  | _, _ => none

/-- A tag after its `<`. -/
def lexTag (s : Str) : Option (Token × Str) :=
  match s with
  | 47 :: s =>
    match s.takeWhile isNameByte, s.dropWhile isNameByte with
    | name, 62 :: s => if name = [] then none else some (.stop name, s)
    | _, _ => none
  | s =>
    if s.takeWhile isNameByte = [] then none
    else (lexAttrs s.length (s.dropWhile isNameByte)).map fun rest =>
      (.start (s.takeWhile isNameByte) rest.1, rest.2)

def lex : Nat → Str → Option (List Token)
  | _, [] => some []
  | 0, _ :: _ => none
  | fuel + 1, c :: s =>
    if c = 60 then (lexTag s).bind fun rest => (lex fuel rest.2).map (rest.1 :: ·)
    else if isTextByte c then (lex fuel s).map (.char c :: ·)
    else none

/-- The tokens become nodes: the stack has the tags that are open, each with the content before
it. -/
def build : List Token → List (Str × List (Str × Str) × List Node) → List Node →
    Option (List Node)
  | [], [], content => some content
  | [], _ :: _, _ => none
  | .char c :: ts, stack, content => build ts stack (content ++ [.char c])
  | .start name attrs :: ts, stack, content => build ts ((name, attrs, content) :: stack) []
  | .stop name :: ts, (name', attrs, before) :: stack, content =>
    if name = name' then build ts stack (before ++ [.element name' attrs content]) else none
  | .stop _ :: _, [], _ => none

def parse (s : Str) : Option (List Node) := (lex s.length s).bind fun ts => build ts [] []

end Parser

section Printer

def printAttr (attr : Str × Str) : Str := 32 :: (attr.1 ++ 61 :: 34 :: (attr.2 ++ [34]))

def Token.print : Token → Str
  | start name attrs => 60 :: (name ++ (attrs.flatMap printAttr ++ [62]))
  | stop name => 60 :: 47 :: (name ++ [62])
  | char c => [c]

mutual

def Node.tokens : Node → List Token
  | .element name attrs content => .start name attrs :: (contentTokens content ++ [.stop name])
  | .char c => [.char c]

def contentTokens : List Node → List Token
  | [] => []
  | node :: nodes => node.tokens ++ contentTokens nodes

end

def print (nodes : List Node) : Str := (contentTokens nodes).flatMap Token.print

theorem contentTokens_append (nodes nodes' : List Node) :
    contentTokens (nodes ++ nodes') = contentTokens nodes ++ contentTokens nodes' := by
  induction nodes with
  | nil => rfl
  | cons node nodes ih =>
    rw [List.cons_append, contentTokens, contentTokens, ih, List.append_assoc]

theorem print_append (nodes nodes' : List Node) :
    print (nodes ++ nodes') = print nodes ++ print nodes' := by
  rw [print, contentTokens_append, List.flatMap_append]
  rfl

theorem print_chars (s : Str) : print (s.map .char) = s := by
  induction s with
  | nil => rfl
  | cons c s ih =>
    show c :: print (s.map .char) = c :: s
    rw [ih]

theorem print_element (name : Str) (attrs : List (Str × Str)) (content : List Node) :
    print [.element name attrs content] =
      (Token.start name attrs).print ++ print content ++ (Token.stop name).print := by
  simp [print, contentTokens, Node.tokens]

end Printer

section WellFormed

/-- The nodes can be told from their print. -/
def WellFormed (nodes : List Node) : Prop := ∀ t ∈ contentTokens nodes, t.WellFormed

theorem WellFormed.append {nodes nodes' : List Node} (h : WellFormed nodes)
    (h' : WellFormed nodes') : WellFormed (nodes ++ nodes') := by
  intro t ht
  rw [contentTokens_append] at ht
  exact (List.mem_append.mp ht).elim (h t) (h' t)

theorem wellFormed_chars {s : Str} (h : ∀ c ∈ s, isTextByte c = true) :
    WellFormed (s.map .char) := by
  induction s with
  | nil => exact fun t ht => absurd ht List.not_mem_nil
  | cons c s ih =>
    intro t ht
    obtain rfl | ht := List.mem_cons.mp (show t ∈ .char c :: contentTokens (s.map .char) from ht)
    · exact h c List.mem_cons_self
    · exact ih (fun c' hc' => h c' (List.mem_cons_of_mem _ hc')) t ht

theorem wellFormed_element {name : Str} {attrs : List (Str × Str)} {content : List Node}
    (hname : IsName name) (hattrs : ∀ attr ∈ attrs, IsAttr attr) (h : WellFormed content) :
    WellFormed [.element name attrs content] := by
  intro t ht
  rw [contentTokens, contentTokens, List.append_nil, Node.tokens, List.mem_cons,
    List.mem_append] at ht
  obtain rfl | ht | ht := ht
  · exact ⟨hname, hattrs⟩
  · exact h t ht
  · rw [List.mem_singleton.mp ht]
    exact hname

end WellFormed

section RoundTrip

theorem takeWhile_stop {p : UInt8 → Bool} {s : Str} (h : ∀ c ∈ s, p c = true) {c : UInt8}
    (hc : p c = false) (rest : Str) :
    (s ++ c :: rest).takeWhile p = s ∧ (s ++ c :: rest).dropWhile p = c :: rest := by
  rw [List.takeWhile_append_of_pos h, List.dropWhile_append_of_pos h,
    List.takeWhile_cons_of_neg (by simp [hc]), List.dropWhile_cons_of_neg (by simp [hc]),
    List.append_nil]
  exact ⟨rfl, rfl⟩

theorem lexAttrs_print {attrs : List (Str × Str)} (h : ∀ attr ∈ attrs, IsAttr attr) (s : Str)
    {fuel : Nat} (hfuel : attrs.length ≤ fuel) :
    lexAttrs fuel (attrs.flatMap printAttr ++ 62 :: s) = some (attrs, s) := by
  induction attrs generalizing fuel with
  | nil => rw [List.flatMap_nil, List.nil_append, lexAttrs]
  | cons attr attrs ih =>
    obtain ⟨fuel, rfl⟩ : ∃ n, fuel = n + 1 := ⟨fuel - 1, by rw [List.length_cons] at hfuel; omega⟩
    obtain ⟨name, value⟩ := attr
    obtain ⟨⟨hne, hname⟩, hvalue⟩ := h (name, value) List.mem_cons_self
    have hrest := ih (fun attr hattr => h attr (List.mem_cons_of_mem _ hattr))
      (Nat.le_of_succ_le_succ hfuel)
    have hshape : ((name, value) :: attrs).flatMap printAttr ++ 62 :: s =
        32 :: (name ++ 61 :: (34 :: (value ++ 34 :: (attrs.flatMap printAttr ++ 62 :: s)))) := by
      simp [printAttr]
    have hnames := takeWhile_stop hname (c := 61) rfl
      (34 :: (value ++ 34 :: (attrs.flatMap printAttr ++ 62 :: s)))
    have hvalues := takeWhile_stop hvalue (c := 34) rfl (attrs.flatMap printAttr ++ 62 :: s)
    rw [hshape, lexAttrs]
    simp only [hnames.1, hnames.2, hvalues.1, hvalues.2, if_neg hne, hrest, Option.map_some]

/-- The name of a start tag ends where an attribute or the end of the tag begins. -/
theorem printAttrs_head (attrs : List (Str × Str)) (s : Str) : ∃ c rest,
    attrs.flatMap printAttr ++ 62 :: s = c :: rest ∧ isNameByte c = false := by
  cases attrs with
  | nil => exact ⟨62, s, rfl, rfl⟩
  | cons attr attrs => exact ⟨32, _, rfl, rfl⟩

theorem length_le_printAttrs (attrs : List (Str × Str)) :
    attrs.length ≤ (attrs.flatMap printAttr).length := by
  induction attrs with
  | nil => exact Nat.le_refl 0
  | cons attr attrs ih =>
    rw [List.flatMap_cons, List.length_append, List.length_cons, printAttr, List.length_cons]
    omega

theorem lexTag_start {name : Str} {attrs : List (Str × Str)} (hname : IsName name)
    (h : ∀ attr ∈ attrs, IsAttr attr) (s : Str) :
    lexTag (name ++ (attrs.flatMap printAttr ++ 62 :: s)) = some (.start name attrs, s) := by
  obtain ⟨c, rest, hhead, hc⟩ := printAttrs_head attrs s
  have hspan := takeWhile_stop hname.bytes hc rest
  have hfuel : attrs.length ≤ (name ++ c :: rest).length := by
    have hlen := length_le_printAttrs attrs
    rw [List.length_append, ← hhead, List.length_append]
    omega
  have hattrs := lexAttrs_print h s hfuel
  rw [hhead] at hattrs ⊢
  rw [lexTag]
  · simp only [hspan.1, hspan.2, if_neg hname.nonempty, hattrs, Option.map_some]
  · -- a name does not begin with a slash
    intro s' heq
    cases name with
    | nil => exact hname.nonempty rfl
    | cons b name =>
      have hb := hname.bytes b List.mem_cons_self
      rw [(List.cons.inj heq).1] at hb
      exact absurd hb (by decide)

theorem lexTag_stop {name : Str} (hname : IsName name) (s : Str) :
    lexTag (47 :: (name ++ 62 :: s)) = some (.stop name, s) := by
  have hspan := takeWhile_stop hname.bytes (c := 62) rfl s
  rw [lexTag]
  simp only [hspan.1, hspan.2, if_neg hname.nonempty]

/-- What is printed is read back as the same tokens. -/
theorem lex_print {ts : List Token} (h : ∀ t ∈ ts, t.WellFormed) {fuel : Nat}
    (hfuel : ts.length ≤ fuel) : lex fuel (ts.flatMap Token.print) = some ts := by
  induction ts generalizing fuel with
  | nil => rw [List.flatMap_nil, lex]
  | cons t ts ih =>
    obtain ⟨fuel, rfl⟩ : ∃ n, fuel = n + 1 := ⟨fuel - 1, by rw [List.length_cons] at hfuel; omega⟩
    have hrest := ih (fun t ht => h t (List.mem_cons_of_mem _ ht)) (Nat.le_of_succ_le_succ hfuel)
    have ht := h t List.mem_cons_self
    cases t with
    | start name attrs =>
      have hshape : (Token.start name attrs :: ts).flatMap Token.print =
          60 :: (name ++ (attrs.flatMap printAttr ++ 62 :: ts.flatMap Token.print)) := by
        simp [Token.print]
      rw [hshape, lex, if_pos rfl, lexTag_start ht.1 ht.2]
      simp only [Option.bind_some, hrest, Option.map_some]
    | stop name =>
      have hshape : (Token.stop name :: ts).flatMap Token.print =
          60 :: 47 :: (name ++ 62 :: ts.flatMap Token.print) := by
        simp [Token.print]
      rw [hshape, lex, if_pos rfl, lexTag_stop ht]
      simp only [Option.bind_some, hrest, Option.map_some]
    | char c =>
      have hc : isTextByte c = true := ht
      have hne : c ≠ 60 := by
        rintro rfl
        cases hc
      show lex (fuel + 1) (c :: ts.flatMap Token.print) = _
      rw [lex, if_neg hne, if_pos hc, hrest]
      rfl

mutual

/-- The tokens of a node make it the next one of the content. -/
theorem build_node (node : Node) (ts : List Token)
    (stack : List (Str × List (Str × Str) × List Node)) (content : List Node) :
    build (node.tokens ++ ts) stack content = build ts stack (content ++ [node]) := by
  cases node with
  | element name attrs inner =>
    rw [Node.tokens, List.cons_append, build, List.append_assoc, build_content inner,
      List.singleton_append, List.nil_append, build, if_pos rfl]
  | char c => rw [Node.tokens, List.singleton_append, build]

theorem build_content (nodes : List Node) (ts : List Token)
    (stack : List (Str × List (Str × Str) × List Node)) (content : List Node) :
    build (contentTokens nodes ++ ts) stack content = build ts stack (content ++ nodes) := by
  cases nodes with
  | nil => rw [contentTokens, List.nil_append, List.append_nil]
  | cons node nodes =>
    rw [contentTokens, List.append_assoc, build_node node, build_content nodes, List.append_assoc,
      List.singleton_append]

end

theorem length_le_print (ts : List Token) : ts.length ≤ (ts.flatMap Token.print).length := by
  induction ts with
  | nil => exact Nat.le_refl 0
  | cons t ts ih =>
    have hpos : 1 ≤ t.print.length := by cases t <;> simp [Token.print]
    rw [List.flatMap_cons, List.length_append, List.length_cons]
    omega

/-- What is printed is read back as the same nodes. -/
theorem parse_print {nodes : List Node} (h : WellFormed nodes) :
    parse (print nodes) = some nodes := by
  rw [parse, print, lex_print h (length_le_print _), Option.bind_some]
  have hbuild := build_content nodes [] [] []
  rw [List.append_nil] at hbuild
  rw [hbuild, build, List.nil_append]

end RoundTrip

end Markup
