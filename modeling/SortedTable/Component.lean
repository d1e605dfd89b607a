/-!
# Components

The four files of a table.
-/

namespace SortedTable

inductive Component where
  | data
  | primaryIndex
  | filter
  | statistics
deriving DecidableEq, Inhabited, Repr

namespace Component

/-- Every component, in the order they are listed and checked. -/
def all : List Component := [data, primaryIndex, filter, statistics]

/-- The components other than the data, which can be rebuilt from it. -/
def auxiliary : List Component := [primaryIndex, filter, statistics]

def rank : Component → Nat
  | data => 0
  | primaryIndex => 1
  | filter => 2
  | statistics => 3

def name : Component → String
  | data => "Data"
  | primaryIndex => "Index"
  | filter => "Filter"
  | statistics => "Statistics"

def suffix (c : Component) : String := c.name ++ ".db"

def ofSuffix? (s : String) : Option Component := all.find? (·.suffix = s)

/-- The name of a component in descriptions of readers. -/
def label : Component → String
  | data => "Data"
  | primaryIndex => "PrimaryIndex"
  | filter => "Filter"
  | statistics => "Stats"

end Component

end SortedTable
