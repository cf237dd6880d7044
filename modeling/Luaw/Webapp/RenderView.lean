import Luaw.Foundations.Markup
import Luaw.Http.Message

/-!
# Template views

The closures `BEGIN`, `TEXT` and `END` of `renderView`. A view calls them in any order; properly
nested calls are those of a list of elements and texts, which the output is read back as.
-/

namespace Luaw.Webapp

open Http Markup

def TAB : Bytes := text "    "

/-- The variables of `renderView` and the strings appended to the response. -/
structure View where
  isTagOpen : Bool
  indent : Nat
  appended : List Bytes

/-- A call in a view. A table after `BEGIN` is a call of the function that `BEGIN` returns. Values
stand as `tostring` gives them, none is nil. -/
inductive ViewCall where
  | BEGIN (tag : Bytes)
  | attributes (attrs : List (Bytes × Bytes))
  | TEXT (values : List (Option Bytes))
  | END (tag : Bytes)

namespace View

def new : View := ⟨false, 0, []⟩

def appendBody (v : View) (bodyPart : Bytes) : View :=
  { v with appended := v.appended ++ [bodyPart] }

/-- `for i=1, indent do resp:appendBody(TAB) end`. -/
def appendTabs (v : View) : View := (List.replicate v.indent TAB).foldl appendBody v

def attributes (rt : Runtime) (v : View) (attrs : List (Bytes × Bytes)) : View :=
  (rt.pairs attrs).foldl (fun v attr =>
    ((((v.appendBody (text " ")).appendBody attr.1).appendBody (text "=\"")).appendBody
      attr.2).appendBody (text "\"")) v

def BEGIN (v : View) (tag : Bytes) : View :=
  let v := if v.isTagOpen then v.appendBody (text ">\n") else v
  let v := (v.appendTabs.appendBody (text "<")).appendBody tag
  { v with isTagOpen := true, indent := v.indent + 1 }

/-- The end of a start tag, in front of text and of an end tag. -/
def closeTag (v : View) : View :=
  if v.isTagOpen then { v.appendBody (text ">\n") with isTagOpen := false } else v

def END (v : View) (tag : Bytes) : View :=
  let v := v.closeTag
  let v := { v with indent := v.indent - 1 }
  ((v.appendTabs.appendBody (text "</")).appendBody tag).appendBody (text ">\n")

/-- `ipairs` stops at the first nil. -/
def TEXT (v : View) (values : List (Option Bytes)) : View :=
  let v := v.closeTag
  let v := ((values.takeWhile Option.isSome).filterMap id).foldl
    (fun v value => (v.appendBody value).appendBody (text " ")) v.appendTabs
  v.appendBody (text "\n")

def call (rt : Runtime) (v : View) : ViewCall → View
  | .BEGIN tag => v.BEGIN tag
  | .attributes attrs => v.attributes rt attrs
  | .TEXT values => v.TEXT values
  | .END tag => v.END tag

/-- The strings that the calls of a view append. -/
def rendered (rt : Runtime) (calls : List ViewCall) : List Bytes :=
  (calls.foldl (call rt) new).appended

end View

/-- What the calls of a view describe. -/
inductive ViewNode where
  | element (tag : Bytes) (attrs : Option (List (Bytes × Bytes))) (content : List ViewNode)
  | text (values : List Bytes)

/-- Each `END` closes the `BEGIN` before it that is still open, and a table follows its `BEGIN`. -/
inductive Nested : List ViewCall → List ViewNode → Prop where
  | nil : Nested [] []
  | text (values : List Bytes) {calls : List ViewCall} {nodes : List ViewNode}
      (hrest : Nested calls nodes) : Nested (.TEXT (values.map some) :: calls) (.text values :: nodes)
  | element (tag : Bytes) (attrs : Option (List (Bytes × Bytes))) {inner calls : List ViewCall}
      {content nodes : List ViewNode} (hinner : Nested inner content) (hrest : Nested calls nodes) :
      Nested (.BEGIN tag :: ((attrs.map ViewCall.attributes).toList ++ inner ++ .END tag :: calls))
        (.element tag attrs content :: nodes)

/-- Names and values are free of the characters of markup. -/
def ViewCall.Plain : ViewCall → Prop
  | BEGIN tag | END tag => IsName tag
  | attributes attrs => ∀ attr ∈ attrs, IsAttr attr
  | TEXT values => ∀ value ∈ values.filterMap id, ∀ c ∈ value, isTextByte c = true

instance : DecidablePred ViewCall.Plain
  | .BEGIN tag | .END tag => inferInstanceAs (Decidable (IsName tag))
  | .attributes attrs => inferInstanceAs (Decidable (∀ attr ∈ attrs, IsAttr attr))
  | .TEXT values => decidable_of_iff ((values.filterMap id).all (·.all isTextByte) = true) (by
      simp only [List.all_eq_true, ViewCall.Plain])

def tabs (depth : Nat) : Bytes := (List.replicate depth TAB).flatten

mutual

/-- The markup for a node at some depth: on lines of their own, and indented, are its text, or its
start tag and its end tag. -/
def ViewNode.layOut (rt : Runtime) (depth : Nat) : ViewNode → List Node
  | .element tag attrs content =>
    (tabs depth).map .char ++
      [.element tag ((attrs.map rt.pairs).getD [])
        (.char 10 :: (layOutContent rt (depth + 1) content ++ (tabs depth).map .char)),
       .char 10]
  | .text values =>
    (tabs depth ++ (values.flatMap (· ++ [32]) ++ [10])).map .char

def layOutContent (rt : Runtime) (depth : Nat) : List ViewNode → List Node
  | [] => []
  | node :: nodes => node.layOut rt depth ++ layOutContent rt depth nodes

end

section Output

variable {rt : Runtime}

/-- The view stands at a depth, with or without a tag to close, and has appended `out`. -/
structure View.At (v : View) (isTagOpen : Bool) (depth : Nat) (out : Bytes) : Prop where
  isTagOpen : v.isTagOpen = isTagOpen
  indent : v.indent = depth
  out : v.appended.flatten = out

variable {v : View} {isTagOpen : Bool} {depth : Nat} {out : Bytes}

theorem View.At.appendBody (h : v.At isTagOpen depth out) (bodyPart : Bytes) :
    (v.appendBody bodyPart).At isTagOpen depth (out ++ bodyPart) := by
  refine ⟨h.isTagOpen, h.indent, ?_⟩
  rw [View.appendBody, List.flatten_append, h.out, List.flatten_singleton]

theorem View.At.foldl {α : Type} (h : v.At isTagOpen depth out) {f : View → α → View}
    {g : α → Bytes} (hf : ∀ {v out} x, v.At isTagOpen depth out →
      (f v x).At isTagOpen depth (out ++ g x)) (xs : List α) :
    (xs.foldl f v).At isTagOpen depth (out ++ xs.flatMap g) := by
  induction xs generalizing v out with
  | nil => simpa using h
  | cons x xs ih =>
    have hrest := ih (hf x h)
    rw [List.append_assoc] at hrest
    exact hrest

theorem View.At.appendTabs (h : v.At isTagOpen depth out) :
    v.appendTabs.At isTagOpen depth (out ++ tabs depth) := by
  have htabs := h.foldl (fun x hx => hx.appendBody x) (List.replicate v.indent TAB)
  rw [List.flatMap_id', h.indent] at htabs
  rw [View.appendTabs, h.indent]
  exact htabs

theorem View.At.attributes (h : v.At isTagOpen depth out) (attrs : List (Bytes × Bytes)) :
    (v.attributes rt attrs).At isTagOpen depth (out ++ (rt.pairs attrs).flatMap printAttr) := by
  refine h.foldl (fun attr hv => ?_) (rt.pairs attrs)
  have happended := ((((hv.appendBody (Luaw.text " ")).appendBody attr.1).appendBody
    (Luaw.text "=\"")).appendBody attr.2).appendBody (Luaw.text "\"")
  simpa [printAttr, Luaw.text] using happended

/-- What closes the tag that is open. -/
def closing (isTagOpen : Bool) : Bytes := if isTagOpen then Luaw.text ">\n" else []

theorem View.At.BEGIN (h : v.At isTagOpen depth out) (tag : Bytes) :
    (v.BEGIN tag).At true (depth + 1) (out ++ closing isTagOpen ++ tabs depth ++ 60 :: tag) := by
  have hclosed : (if v.isTagOpen then v.appendBody (Luaw.text ">\n") else v).At isTagOpen depth
      (out ++ closing isTagOpen) := by
    rw [h.isTagOpen]
    cases isTagOpen with
    | true => exact h.appendBody _
    | false => simpa [closing] using h
  have hbegun := (hclosed.appendTabs.appendBody (Luaw.text "<")).appendBody tag
  refine ⟨rfl, congrArg (· + 1) hbegun.indent, hbegun.out.trans ?_⟩
  rw [List.append_assoc _ (Luaw.text "<")]
  rfl

theorem View.At.closeTag (h : v.At isTagOpen depth out) :
    v.closeTag.At false depth (out ++ closing isTagOpen) := by
  rw [View.closeTag, h.isTagOpen]
  cases isTagOpen with
  | true => exact ⟨rfl, h.indent, (h.appendBody _).out⟩
  | false => simpa [closing] using h

theorem View.At.END (h : v.At isTagOpen (depth + 1) out) (tag : Bytes) :
    (v.END tag).At false depth
      (out ++ closing isTagOpen ++ tabs depth ++ (Token.stop tag).print ++ [10]) := by
  have hclosed := h.closeTag
  have hindented : View.At { v.closeTag with indent := v.closeTag.indent - 1 } false depth
      (out ++ closing isTagOpen) := by
    refine ⟨hclosed.isTagOpen, ?_, hclosed.out⟩
    show v.closeTag.indent - 1 = depth
    rw [hclosed.indent, Nat.add_sub_cancel]
  have hended := ((hindented.appendTabs.appendBody (Luaw.text "</")).appendBody tag).appendBody
    (Luaw.text ">\n")
  have hout : out ++ closing isTagOpen ++ tabs depth ++ (Token.stop tag).print ++ [10] =
      out ++ closing isTagOpen ++ tabs depth ++ Luaw.text "</" ++ tag ++ Luaw.text ">\n" := by
    simp [Token.print, Luaw.text]
  rw [hout]
  exact hended

theorem View.At.TEXT (h : v.At isTagOpen depth out) (values : List Bytes) :
    (v.TEXT (values.map some)).At false depth
      (out ++ closing isTagOpen ++ tabs depth ++ values.flatMap (· ++ [32]) ++ [10]) := by
  have hvalues : ((values.map some).takeWhile Option.isSome).filterMap id = values := by
    rw [List.takeWhile_eq_self_iff.mpr (by simp), List.filterMap_map]
    exact List.filterMap_some
  have hvalue : ∀ {v : View} {out : Bytes} (value : Bytes), v.At false depth out →
      ((v.appendBody value).appendBody (Luaw.text " ")).At false depth (out ++ (value ++ [32])) := by
    intro v out value hv
    rw [← List.append_assoc]
    exact (hv.appendBody value).appendBody (Luaw.text " ")
  rw [View.TEXT, hvalues]
  exact (h.closeTag.appendTabs.foldl hvalue values).appendBody (Luaw.text "\n")

theorem print_layOut_element (tag : Bytes) (attrs : Option (List (Bytes × Bytes)))
    (content : List ViewNode) : print ((ViewNode.element tag attrs content).layOut rt depth) =
      tabs depth ++ 60 :: tag ++ ((attrs.map rt.pairs).getD []).flatMap printAttr ++
        Luaw.text ">\n" ++ print (layOutContent rt (depth + 1) content) ++ tabs depth ++
        (Token.stop tag).print ++ [10] := by
  have hlines : ∀ node : Node, [node, .char 10] = [node] ++ [10].map Node.char := fun _ => rfl
  have hcontent : ∀ inner : List Node, print (.char 10 :: inner) = 10 :: print inner :=
    fun _ => rfl
  rw [ViewNode.layOut, print_append, print_chars, hlines, print_append, print_chars, print_element,
    hcontent, print_append, print_chars]
  simp [Token.print, Luaw.text]

theorem print_layOut_text (values : List Bytes) :
    print ((ViewNode.text values).layOut rt depth) =
      tabs depth ++ values.flatMap (· ++ [32]) ++ [10] := by
  rw [ViewNode.layOut, print_chars, List.append_assoc]

theorem print_layOut_cons (node : ViewNode) (nodes : List ViewNode) :
    print (layOutContent rt depth (node :: nodes)) =
      print (node.layOut rt depth) ++ print (layOutContent rt depth nodes) := by
  rw [layOutContent, print_append]

/-- The start tag that the calls leave open, which only no calls at all do. -/
def openAfter (isTagOpen : Bool) (nodes : List ViewNode) : Bool := isTagOpen && nodes.isEmpty

/-- What closes the start tag that is open before the calls. -/
def closedBy (isTagOpen : Bool) (nodes : List ViewNode) : Bytes :=
  if nodes.isEmpty then [] else closing isTagOpen

theorem openAfter_false (nodes : List ViewNode) : openAfter false nodes = false := rfl

theorem openAfter_cons (isTagOpen : Bool) (node : ViewNode) (nodes : List ViewNode) :
    openAfter isTagOpen (node :: nodes) = false := Bool.and_false isTagOpen

theorem closedBy_false (nodes : List ViewNode) : closedBy false nodes = [] := by
  cases nodes <;> rfl

theorem closedBy_cons (isTagOpen : Bool) (node : ViewNode) (nodes : List ViewNode) :
    closedBy isTagOpen (node :: nodes) = closing isTagOpen := rfl

/-- An element's start tag is closed before its content or, without content, before its end. -/
theorem closedBy_content (content : List ViewNode) (rest : Bytes) :
    closedBy true content ++ (print (layOutContent rt depth content) ++
        (closing (openAfter true content) ++ rest)) =
      Luaw.text ">\n" ++ (print (layOutContent rt depth content) ++ rest) := by
  cases content with
  | nil => rfl
  | cons node content =>
    rw [closedBy_cons, openAfter_cons]
    rfl

/-- The first call in an element closes its start tag, and `END` does it if there is none. -/
theorem Nested.output {calls : List ViewCall} {nodes : List ViewNode} (hnested : Nested calls nodes)
    (h : v.At isTagOpen depth out) :
    (calls.foldl (View.call rt) v).At (openAfter isTagOpen nodes) depth
      (out ++ closedBy isTagOpen nodes ++ print (layOutContent rt depth nodes)) := by
  induction hnested generalizing v isTagOpen depth out with
  | nil =>
    have hnil : print (layOutContent rt depth []) = [] := rfl
    rw [hnil]
    simpa [openAfter, closedBy] using h
  | text values hrest ih =>
    have hout := ih (h.TEXT values)
    rw [openAfter_false, closedBy_false, List.append_nil] at hout
    rw [openAfter_cons, closedBy_cons, print_layOut_cons, print_layOut_text]
    simpa only [List.foldl_cons, View.call, List.append_assoc] using hout
  | element tag attrs hinner hrest ihinner ihrest =>
    rename_i inner calls content nodes
    -- the start tag with its attributes
    have hstart : ((attrs.map ViewCall.attributes).toList.foldl (View.call rt) (v.BEGIN tag)).At
        true (depth + 1) (out ++ closing isTagOpen ++ tabs depth ++ 60 :: tag ++
          ((attrs.map rt.pairs).getD []).flatMap printAttr) := by
      cases attrs with
      | none => simpa using h.BEGIN tag
      | some attrs => exact (h.BEGIN tag).attributes attrs
    have hout := ihrest ((ihinner hstart).END tag)
    rw [openAfter_false, closedBy_false, List.append_nil] at hout
    rw [openAfter_cons, closedBy_cons, print_layOut_cons, print_layOut_element, List.foldl_cons,
      List.foldl_append, List.foldl_append, List.foldl_cons]
    simpa only [View.call, List.append_assoc, closedBy_content] using hout

end Output

section Plain

variable {rt : Runtime}

theorem isTextByte_tabs (depth : Nat) : ∀ c ∈ tabs depth, isTextByte c = true := by
  intro c hc
  obtain ⟨tab, htab, hc⟩ := List.mem_flatten.mp hc
  rw [List.eq_of_mem_replicate htab] at hc
  exact List.all_eq_true.mp (show TAB.all isTextByte = true by decide) c hc

theorem wellFormed_tabs (depth : Nat) : WellFormed ((tabs depth).map .char) :=
  wellFormed_chars (isTextByte_tabs depth)

theorem wellFormed_newline : WellFormed [.char 10] :=
  wellFormed_chars (List.all_eq_true.mp (show [(10 : UInt8)].all isTextByte = true by decide))

theorem wellFormed_text {values : List Bytes}
    (h : ∀ value ∈ values, ∀ c ∈ value, isTextByte c = true) (depth : Nat) :
    WellFormed ((ViewNode.text values).layOut rt depth) := by
  refine wellFormed_chars fun c hc => ?_
  obtain hc | hc := List.mem_append.mp hc
  · exact isTextByte_tabs depth c hc
  · obtain hc | hc := List.mem_append.mp hc
    · obtain ⟨value, hvalue, hc⟩ := List.mem_flatMap.mp hc
      obtain hc | hc := List.mem_append.mp hc
      · exact h value hvalue c hc
      · rw [List.mem_singleton.mp hc]
        decide
    · rw [List.mem_singleton.mp hc]
      decide

theorem Nested.wellFormed {calls : List ViewCall} {nodes : List ViewNode}
    (hnested : Nested calls nodes) (hplain : ∀ call ∈ calls, call.Plain) (depth : Nat) :
    WellFormed (layOutContent rt depth nodes) := by
  induction hnested generalizing depth with
  | nil => exact fun t ht => absurd ht List.not_mem_nil
  | text values hrest ih =>
    have hvalues : ∀ value ∈ values, ∀ c ∈ value, isTextByte c = true := by
      have hcall : ViewCall.Plain (.TEXT (values.map some)) := hplain _ List.mem_cons_self
      rw [ViewCall.Plain, List.filterMap_map] at hcall
      simpa using hcall
    exact (wellFormed_text hvalues depth).append
      (ih (fun call hcall => hplain call (List.mem_cons_of_mem _ hcall)) depth)
  | element tag attrs hinner hrest ihinner ihrest =>
    rename_i inner calls content nodes
    have htag : IsName tag := hplain _ List.mem_cons_self
    have htail : ∀ call ∈ (attrs.map ViewCall.attributes).toList ++ inner ++ .END tag :: calls,
        call.Plain := fun call hcall => hplain call (List.mem_cons_of_mem _ hcall)
    have hattrs : ∀ attr ∈ (attrs.map rt.pairs).getD [], IsAttr attr := by
      cases attrs with
      | none => exact fun attr hattr => absurd hattr List.not_mem_nil
      | some attrs =>
        have htable : ViewCall.Plain (.attributes attrs) := htail _ List.mem_cons_self
        exact fun attr hattr => htable attr ((rt.pairs_perm attrs).mem_iff.mp hattr)
    have hcontent := ihinner (fun call hcall => htail call (List.mem_append_left _
      (List.mem_append_right _ hcall))) (depth + 1)
    have hafter := ihrest (fun call hcall => htail call (List.mem_append_right _
      (List.mem_cons_of_mem _ hcall))) depth
    have helement := wellFormed_element htag hattrs
      (wellFormed_newline.append (hcontent.append (wellFormed_tabs depth)))
    exact ((wellFormed_tabs depth).append (helement.append wellFormed_newline)).append hafter

end Plain

/-- The output of properly nested calls is markup for what they describe: indented by depth, each
start tag closed once behind its attributes, and each element ended by its own end tag. -/
theorem view_renders_markup (rt : Runtime) {calls : List ViewCall} {nodes : List ViewNode}
    (hnested : Nested calls nodes) (hplain : ∀ call ∈ calls, call.Plain) :
    Markup.parse (View.rendered rt calls).flatten = some (layOutContent rt 0 nodes) := by
  have hnew : View.new.At false 0 [] := ⟨rfl, rfl, rfl⟩
  have hout : (calls.foldl (View.call rt) View.new).appended.flatten = _ := (hnested.output hnew).out
  rw [closedBy_false, List.append_nil, List.nil_append] at hout
  rw [View.rendered, hout]
  exact parse_print (hnested.wellFormed hplain 0)

/-- `BEGIN 'div' {class="a"}  BEGIN 'h1'  TEXT('x', 'y')  END 'h1'  BEGIN 'p'  END 'p'  END 'div'`. -/
def divCalls : List ViewCall :=
  [.BEGIN (text "div"), .attributes [(text "class", text "a")], .BEGIN (text "h1"),
    .TEXT [some (text "x"), some (text "y")], .END (text "h1"), .BEGIN (text "p"),
    .END (text "p"), .END (text "div")]

def divNodes : List ViewNode :=
  [.element (text "div") (some [(text "class", text "a")])
    [.element (text "h1") none [.text [text "x", text "y"]], .element (text "p") none []]]

theorem div_renders_markup :
    Markup.parse (View.rendered .default divCalls).flatten =
      some (layOutContent .default 0 divNodes) := by
  have hnested : Nested divCalls divNodes :=
    .element _ (some _) (.element _ none (.text [text "x", text "y"] .nil)
      (.element _ none .nil .nil)) .nil
  exact view_renders_markup .default hnested (by decide)

end Luaw.Webapp
