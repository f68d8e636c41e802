import Mathlib.Data.List.Forall2
import GoAtlas.Proofs.Source.Derivation

/-!
# What phrases of Go mean
-/

namespace GoAtlas.Source

/-! ## Lists -/

/-- What comes after the first of some items, each with a separator before it.  There may be one
more separator at the end. -/
inductive SeparatedTail (separators : List Token) : List (List Word) → List Word → Prop where
  | nil : SeparatedTail separators [] []
  | last {separator : Word} (hseparator : separator.1 ∈ separators) :
      SeparatedTail separators [] [separator]
  | cons {separator : Word} {item : List Word} {items : List (List Word)} {tail : List Word}
      (hseparator : separator.1 ∈ separators) (htail : SeparatedTail separators items tail) :
      SeparatedTail separators (item :: items) (separator :: (item ++ tail))

/-- Some items with separators between them. -/
inductive Separated (separators : List Token) : List (List Word) → List Word → Prop where
  | none {words : List Word} (htail : SeparatedTail separators [] words) :
      Separated separators [] words
  | cons {item : List Word} {items : List (List Word)} {tail : List Word}
      (htail : SeparatedTail separators items tail) :
      Separated separators (item :: items) (item ++ tail)

theorem SeparatedTail.length_le {separators : List Token} {items : List (List Word)}
    {words : List Word} (htail : SeparatedTail separators items words) :
    ∀ item ∈ items, item.length ≤ words.length := by
  induction htail with
  | nil => simp
  | last => simp
  | cons hseparator htail ih =>
      intro item hitem
      rcases List.mem_cons.mp hitem with rfl | hitem
      · simp
        omega
      · have hle := ih item hitem
        simp
        omega

theorem Separated.length_le {separators : List Token} {items : List (List Word)}
    {words : List Word} (hwords : Separated separators items words) :
    ∀ item ∈ items, item.length ≤ words.length := by
  cases hwords with
  | none htail => exact htail.length_le
  | cons htail =>
      intro item hitem
      rcases List.mem_cons.mp hitem with rfl | hitem
      · simp
      · have hle := htail.length_le item hitem
        simp
        omega

/-- Names after the first one. -/
inductive NamesTail : List String → List Word → Prop where
  | nil : NamesTail [] []
  | cons {comma name : String} {names : List String} {tail : List Word}
      (htail : NamesTail names tail) :
      NamesTail (name :: names) ((.comma, comma) :: (.identifier, name) :: tail)

/-- Some names with commas between them. -/
inductive NamesPhrase : List String → List Word → Prop where
  | none : NamesPhrase [] []
  | cons {name : String} {names : List String} {tail : List Word} (htail : NamesTail names tail) :
      NamesPhrase (name :: names) ((.identifier, name) :: tail)

/-- The tokens of strings. -/
def stringTokens : List Token := [.rawString, .quotedString]

/-- What may end a declaration, field or element. -/
def terminators : List Token := [.lineEnd, .semicolon, .nul]

/-- The tag of a field. -/
inductive TagPhrase : Option String → List Word → Prop where
  | none : TagPhrase none []
  | some {token : Token} {tag : String} (htoken : token ∈ stringTokens) :
      TagPhrase (some tag) [(token, tag)]

/-- Whether all parameters of a list have names, or none has. -/
def Uniform (params : List FieldDecl) : Prop :=
  (∀ param ∈ params, param.names ≠ []) ∨ (∀ param ∈ params, param.names = [])

/-! ## Types -/

mutual

/-- `TypePhrase words type`: the words are a type and mean `type`. -/
inductive TypePhrase : List Word → TypeExpr → Prop where
  | name (name : String) : TypePhrase [(.identifier, name)] (.ident name)
  | qualified {dot : String} (package name : String) :
      TypePhrase [(.identifier, package), (.dot, dot), (.identifier, name)]
        (.selector package name)
  | parens {opening closing : String} {words : List Word} {type : TypeExpr}
      (htype : TypePhrase words type) :
      TypePhrase ((.openParen, opening) :: (words ++ [(.closeParen, closing)])) type
  | pointer {star : String} {words : List Word} {type : TypeExpr}
      (htype : TypePhrase words type) :
      TypePhrase ((.star, star) :: words) (.pointer type)
  | slice {opening closing : String} {words : List Word} {type : TypeExpr}
      (htype : TypePhrase words type) :
      TypePhrase ((.openBracket, opening) :: (.closeBracket, closing) :: words) (.array type)
  | map {word opening closing : String} {keys values : List Word} {key value : TypeExpr}
      (hkey : TypePhrase keys key) (hvalue : TypePhrase values value) :
      TypePhrase ((.mapWord, word) :: (.openBracket, opening) ::
        (keys ++ (.closeBracket, closing) :: values)) (.map key value)
  | chan {word : String} {words : List Word} {type : TypeExpr} (htype : TypePhrase words type) :
      TypePhrase ((.chanWord, word) :: words) (.chan .both type)
  | sendChan {word arrow : String} {words : List Word} {type : TypeExpr}
      (htype : TypePhrase words type) :
      TypePhrase ((.chanWord, word) :: (.arrow, arrow) :: words) (.chan .send type)
  | recvChan {word arrow : String} {words : List Word} {type : TypeExpr}
      (htype : TypePhrase words type) :
      TypePhrase ((.arrow, arrow) :: (.chanWord, word) :: words) (.chan .recv type)
  | struct {word opening closing : String} {items : List (List Word)} {body : List Word}
      {fields : List FieldDecl} (hbody : Separated terminators items body)
      (hfields : List.Forall₂ FieldPhrase items fields) :
      TypePhrase
        ((.structWord, word) :: (.openBrace, opening) :: (body ++ [(.closeBrace, closing)]))
        (.struct fields false)
  | interface {word opening closing : String} {items : List (List Word)} {body : List Word}
      {elements : List FieldDecl} (hbody : Separated terminators items body)
      (helements : List.Forall₂ ElementPhrase items elements) :
      TypePhrase
        ((.interfaceWord, word) :: (.openBrace, opening) :: (body ++ [(.closeBrace, closing)]))
        (.interface elements)
  | func {word : String} {words : List Word} {params results : List FieldDecl}
      (hsignature : SignaturePhrase words params results) :
      TypePhrase ((.funcWord, word) :: words) (.func params results)
  /-- An array type, with its length. -/
  | array {opening : String} {word : Word} {words : List Word} {type : TypeExpr}
      (hlength : word.1 ≠ .closeBracket) :
      TypePhrase ((.openBracket, opening) :: word :: words) type
  /-- A generic type with its arguments. -/
  | applied {opening name : String} {word : Word} {words : List Word} {type : TypeExpr}
      (hargument : word.1 ≠ .closeBracket) :
      TypePhrase ((.identifier, name) :: (.openBracket, opening) :: word :: words) type
  | appliedQualified {opening package dot name : String} {words : List Word} {type : TypeExpr} :
      TypePhrase ((.identifier, package) :: (.dot, dot) :: (.identifier, name) ::
        (.openBracket, opening) :: words) type
  | negated {tilde : String} {words : List Word} {type : TypeExpr} :
      TypePhrase ((.tilde, tilde) :: words) type

/-- The parameters and results of a function. -/
inductive SignaturePhrase : List Word → List FieldDecl → List FieldDecl → Prop where
  | plain {words : List Word} {params : List FieldDecl} (hparams : ParamsPhrase words params) :
      SignaturePhrase words params []
  | results {words more : List Word} {params results : List FieldDecl}
      (hparams : ParamsPhrase words params) (hresults : ParamsPhrase more results) :
      SignaturePhrase (words ++ more) params results
  | result {words more : List Word} {word : Word} {params : List FieldDecl} {type : TypeExpr}
      (hparams : ParamsPhrase words params) (htype : TypePhrase (word :: more) type)
      (hword : word.1 ≠ .openParen) :
      SignaturePhrase (words ++ word :: more) params [{ names := [], type }]

/-- A list of parameters. -/
inductive ParamsPhrase : List Word → List FieldDecl → Prop where
  | list {opening closing : String} {items : List (List Word)} {body : List Word}
      {params : List FieldDecl} (hbody : Separated [.comma] items body)
      (hparams : List.Forall₂ ParamPhrase items params) (huniform : Uniform params) :
      ParamsPhrase ((.openParen, opening) :: (body ++ [(.closeParen, closing)])) params

/-- A parameter, or several of one type. -/
inductive ParamPhrase : List Word → FieldDecl → Prop where
  | plain {names : List String} {words more : List Word} {type : TypeExpr}
      (hnames : NamesPhrase names words) (htype : TypePhrase more type) :
      ParamPhrase (words ++ more) { names, type }
  | variadic {names : List String} {words more : List Word} {ellipsis : String} {type : TypeExpr}
      (hnames : NamesPhrase names words) (htype : TypePhrase more type) :
      ParamPhrase (words ++ (.ellipsis, ellipsis) :: more) { names, type := .ellipsis type }

/-- A field of a struct, or several of one type. -/
inductive FieldPhrase : List Word → FieldDecl → Prop where
  | named {name : String} {names : List String} {words more last : List Word} {type : TypeExpr}
      {tag : Option String} (hnames : NamesPhrase (name :: names) words)
      (htype : TypePhrase more type) (htag : TagPhrase tag last) :
      FieldPhrase (words ++ (more ++ last)) { names := name :: names, type, tag }
  | embedded {words last : List Word} {type : TypeExpr} {tag : Option String}
      (htype : TypePhrase words type) (htag : TagPhrase tag last) :
      FieldPhrase (words ++ last) { names := [], type, tag }

/-- An element of an interface. -/
inductive ElementPhrase : List Word → FieldDecl → Prop where
  | method {name : String} {words : List Word} {params results : List FieldDecl}
      (hsignature : SignaturePhrase words params results) :
      ElementPhrase ((.identifier, name) :: words)
        { names := [name], type := .func params results }
  | embedded {words : List Word} {type : TypeExpr} (htype : TypePhrase words type) :
      ElementPhrase words { names := [], type }
  | union {words more : List Word} {type : TypeExpr} {bar : String} {element : FieldDecl}
      (htype : TypePhrase words type) :
      ElementPhrase (words ++ (.bar, bar) :: more) element

end

end GoAtlas.Source
